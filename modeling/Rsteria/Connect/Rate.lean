import Rsteria.Congestion.Window
import Rsteria.Connect

/-!
# The sending rate of a connection

What the two layers of congestion control add up to, for a connection with an upload cap: `connect`
starts Brutal at the cap, and lowers the shared rate to what the server announces once the handshake
is done; every controller of the connection reads the rate whenever its window is asked for, however
it was built, cloned and fed. QUIC paces by the window over a round trip, so the window that the
agreed rate gives is the rate itself; Brutal exceeds it by a quarter at most, to make up for losses,
and never falls below it.

The bounds hold at all times, also for acknowledgements and losses that are reported out of order:
the acknowledgement rate is computed from whatever the slots hold, and they hold no more than the
controller was told of (`Brutal.Holds`). The window is computed exactly, and the bounds are those of
a controller whose packets can be counted in 64 bits.

## Main definitions

* `Congestion.packets` : the number of packets that samples count.
* `Congestion.Record.lastMtu`, `Congestion.Record.lastSrtt` : what a controller was told last.
* `Connect.SendsAt` : the windows of all controllers are those of a rate.

## Main results

* `Connect.upload_paced` : the rate of a connection before and after the handshake.
-/

namespace Rsteria.Congestion

open SlidingWindow (sum_weight_record_le weight_windowSum_le)

variable {ρ σ : Type} (get : ρ → Duration)

/-- The number of acknowledged and lost packets that samples count. -/
def packets (h : List (ℕ × ℕ × ℕ)) : ℕ := (h.map fun s => s.2.1 + s.2.2).sum

/-- The number of acknowledged and lost packets that a controller was told of. -/
def Record.packets (r : Record ρ) : ℕ := Congestion.packets (samples r.base r.mtu.toNat r.events)

/-- The packet size that a controller was told of last. -/
def Record.lastMtu (r : Record ρ) : ℕ :=
  r.events.foldl (fun mtu e => e.nextMtu mtu) r.mtu.toNat

/-- The round-trip time that a controller was told of last, zero before the first. -/
def Record.lastSrtt (r : Record ρ) : Duration :=
  r.events.foldl (fun srtt e => e.nextSrtt get srtt) 0

/-- What a pair of counters adds up to. -/
def weight (counts : UInt64 × UInt64) : ℕ := counts.1.toNat + counts.2.toNat

theorem weight_add_le (a b : UInt64 × UInt64) : weight (a + b) ≤ weight a + weight b := by
  have hack : (a.1 + b.1).toNat ≤ a.1.toNat + b.1.toNat := by
    rw [UInt64.toNat_add]
    exact Nat.mod_le _ _
  have hloss : (a.2 + b.2).toNat ≤ a.2.toNat + b.2.toNat := by
    rw [UInt64.toNat_add]
    exact Nat.mod_le _ _
  simp only [weight, Prod.fst_add, Prod.snd_add]
  omega

theorem weight_ofNat_le (ack loss : ℕ) :
    weight (UInt64.ofNat ack, UInt64.ofNat loss) ≤ ack + loss := by
  simp only [weight, UInt64.toNat_ofNat']
  exact Nat.add_le_add (Nat.mod_le _ _) (Nat.mod_le _ _)

theorem packets_append (h h' : List (ℕ × ℕ × ℕ)) : packets (h ++ h') = packets h + packets h' := by
  rw [packets, List.map_append, List.sum_append]
  rfl

/-- The slots hold at most `n` packets, and if these fit into 64 bits the acknowledgement rate is
within its bounds. -/
structure Brutal.Holds (n : ℕ) (b : Brutal) : Prop where
  slots_le : ∑ i, weight (b.ring i).count ≤ n
  rate : n < 2 ^ 64 → minAckRate ≤ b.ackRate ∧ b.ackRate ≤ 1

variable {get} {b : Brutal} {n : ℕ}

theorem Brutal.holds_new (rate : ℕ) (mtu : UInt16) (base : Instant) :
    (new rate mtu base).Holds 0 where
  slots_le := by
    rw [ring_new]
    decide
  rate _ := ⟨by norm_num [new, minAckRate], le_refl 1⟩

/-- A sample adds its packets, whatever its time. -/
theorem Brutal.Holds.record (hb : b.Holds n) (now : Instant) (ack loss : ℕ) :
    (b.record now (UInt64.ofNat ack) (UInt64.ofNat loss)).Holds (n + (ack + loss)) := by
  have hslots : ∑ i, weight
      ((b.record now (UInt64.ofNat ack) (UInt64.ofNat loss)).ring i).count ≤ n + (ack + loss) := by
    rw [ring_record]
    exact (sum_weight_record_le weight_add_le _ _).trans
      (Nat.add_le_add hb.slots_le (weight_ofNat_le ack loss))
  refine ⟨hslots, fun hn => ?_⟩
  have hfits : weight ((b.record now (UInt64.ofNat ack) (UInt64.ofNat loss)).sums
      (second b.base now)) < 2 ^ 64 := by
    rw [sums_eq]
    exact ((weight_windowSum_le rfl weight_add_le _).trans hslots).trans_lt hn
  rw [ackRate_record, rateOf_eq_shareOf hfits]
  exact shareOf_bounds _

/-- An event adds the packets that it records. -/
theorem Brutal.Holds.handle (hb : b.Holds n) (get : ρ → Duration) (e : PathEvent ρ) :
    ((Brutal.controller get).handle b e).Holds
      (n + packets (e.sample b.base b.mtu).toList) := by
  cases e with
  | ack now sent bytes appLimited rtt =>
    have hsrtt : Brutal.Holds n { b with srtt := get rtt } := ⟨hb.slots_le, hb.rate⟩
    exact hsrtt.record now 1 0
  | congestion now sent persistent lost => exact hb.record now 0 _
  | sent now bytes last => exact hb
  | endAcks now inFlight appLimited largest => exact hb
  | mtuUpdate newMtu => exact ⟨hb.slots_le, hb.rate⟩

/-- A controller that was fed any events: its packet size, its round-trip time, and what its slots
hold. -/
theorem feed_spec (hb : b.Holds n) (es : List (PathEvent ρ)) :
    ((Brutal.controller get).feed b es).mtu = es.foldl (fun mtu e => e.nextMtu mtu) b.mtu ∧
      ((Brutal.controller get).feed b es).srtt =
        es.foldl (fun srtt e => e.nextSrtt get srtt) b.srtt ∧
      ((Brutal.controller get).feed b es).Holds (n + packets (samples b.base b.mtu es)) := by
  induction es generalizing b n with
  | nil => exact ⟨rfl, rfl, hb⟩
  | cons e es ih =>
    obtain ⟨hmtu, hsrtt, hbase⟩ := fields_handle get b e
    have htail := ih (hb.handle get e)
    rw [hmtu, hsrtt, hbase, Nat.add_assoc, ← packets_append] at htail
    exact htail

/-- The window is at least the floor and what the rate sends in a round trip, and at most five
quarters of that. -/
theorem windowAt_brutal (factory : SwitchableFactory) (r : Record ρ) (hr : r.packets < 2 ^ 64)
    (bps : UInt64) :
    let floor := max (r.lastMtu * 2) 10240
    let target : ℚ := bps.toNat * (r.lastSrtt get / 10 ^ 9)
    max floor (asU64 target) ≤ (r.brutal get factory).windowAt bps ∧
      (r.brutal get factory).windowAt bps ≤ max floor (asU64 (target * (5 / 4))) := by
  intro floor target
  obtain ⟨hmtu, hsrtt, hholds⟩ : (r.brutal get factory).mtu = r.lastMtu ∧
      (r.brutal get factory).srtt = r.lastSrtt get ∧
      (r.brutal get factory).Holds (0 + r.packets) :=
    feed_spec (Brutal.holds_new factory.rate r.mtu r.base) r.events
  have hrate := hholds.rate (by rwa [Nat.zero_add])
  have hfloor : (r.brutal get factory).floor = floor := by rw [Brutal.floor, hmtu]
  have htarget : (r.brutal get factory).target bps = target := by rw [Brutal.target, hsrtt]
  by_cases hzero : (r.brutal get factory).srtt = 0
  · -- Before the first round-trip time the window is the floor, and nothing is sent in no time.
    have hnone : target = 0 := by rw [← htarget, Brutal.target, hzero]; simp
    have hempty : asU64 0 = 0 := by simp [asU64]
    rw [show (r.brutal get factory).windowAt bps = _ from if_pos hzero, hfloor, hnone, zero_mul,
      hempty]
    exact ⟨max_le (le_refl _) (Nat.zero_le _), le_max_left _ _⟩
  · rw [← hfloor, ← htarget]
    exact Brutal.windowAt_bounds hrate (Nat.pos_of_ne_zero hzero)

end Rsteria.Congestion

namespace Rsteria.Connect

open Congestion

variable {ρ σ : Type} (get : ρ → Duration) (bbr : Library ρ σ)

/-- The windows of all controllers are those of a sender of `bps` bytes per second: with the packet
size and the round-trip time that a controller was told of last, its window is at least the floor
and the bytes that the rate sends in a round trip, and at most the floor or five quarters of these
bytes, if it was told of less than `2 ^ 64` packets. -/
def SendsAt (bps : UInt64) (s : System σ) (rs : List (Record ρ)) : Prop :=
  ∀ (i : ℕ) (c : SwitchableController σ), s.controllers[i]? = some c → ∃ r, rs[i]? = some r ∧
    let floor := max (r.lastMtu * 2) 10240
    let target : ℚ := bps.toNat * (r.lastSrtt get / 10 ^ 9)
    let window := (SwitchableController.controller get bbr).window c s.mem
    r.packets < 2 ^ 64 →
      max floor (asU64 target) ≤ window ∧ window ≤ max floor (asU64 (target * (5 / 4)))

variable {get bbr} {factory : SwitchableFactory} {config : Config} {resp : Response}
  {auth : AuthResponse}

/-- Controllers that Brutal governs send at the shared rate. -/
theorem sendsAt_of_flag (hbbr : bbr.Copies) (m : Memory) (es : List (Congestion.Event ρ))
    {bps : UInt64} (hflag : (System.run get bbr factory m es).mem.bool factory.useBbr = false)
    (hrate : (System.run get bbr factory m es).mem.u64 factory.rate = bps) :
    SendsAt get bbr bps (System.run get bbr factory m es) (Record.run es) := by
  intro i c hc
  obtain ⟨r, hr, hwindow, -⟩ := governed_run hbbr m es hc
  refine ⟨r, hr, ?_⟩
  intro floor target window hpackets
  rw [hflag, if_neg (by simp), window_brutal, hrate] at hwindow
  simp only [window, hwindow]
  exact windowAt_brutal factory r hpackets bps

theorem agreedRate_le_serverRx (hlimit : auth.serverRx ≠ 0) :
    agreedRate config auth ≤ auth.serverRx := by
  rw [agreedRate, if_neg hlimit]
  change (if config.txBps ≤ auth.serverRx then config.txBps else auth.serverRx) ≤ auth.serverRx
  split_ifs with hle
  · exact hle
  · exact UInt64.le_refl _

/-- **A connection sends at the agreed rate.** Whatever its controllers are told, and however often
they are built and cloned: until the handshake is done they send at the cap, and afterwards, unless
the server leaves the rate to the client, at a rate that neither the cap nor the server's limit
exceeds, with a quarter on top for losses at most. -/
theorem upload_paced (get : ρ → Duration) (bbr : Library ρ σ) (hbbr : bbr.Copies)
    (factory : SwitchableFactory) (config : Config) (h : authenticate resp = .ok auth)
    (hfixed : ccRx resp ≠ some "auto".toList) (m : Memory)
    {before after : List (Congestion.Event ρ)} (hbefore : ∀ e ∈ before, e.stores = false)
    (hafter : ∀ e ∈ after, e.stores = false) :
    SendsAt get bbr config.txBps
        (System.run get bbr factory (initialCells factory config m) before)
        (Record.run before) ∧
      SendsAt get bbr (agreedRate config auth)
        (connectionRun get bbr factory config auth m before after)
        (Record.run (before ++ negotiate config auth ++ after)) ∧
      agreedRate config auth ≤ config.txBps ∧
      (auth.serverRx ≠ 0 → agreedRate config auth ≤ auth.serverRx) := by
  have hcells : (System.run get bbr factory (initialCells factory config m) before).mem =
      initialCells factory config m :=
    mem_foldl_of_not_stores hbefore _
  have hauto : auth.rxAuto = false := by
    by_contra hrx
    exact hfixed ((rxAuto_iff h).1 (Bool.of_not_eq_false hrx))
  obtain ⟨hflag, hrate⟩ :
      (connectionRun get bbr factory config auth m before after).mem.bool factory.useBbr =
          auth.rxAuto ∧
        (connectionRun get bbr factory config auth m before after).mem.u64 factory.rate =
          if auth.rxAuto then config.txBps else agreedRate config auth :=
    cells_connectionRun m hbefore hafter
  rw [hauto] at hflag
  rw [hauto, if_neg (by simp)] at hrate
  refine ⟨sendsAt_of_flag hbbr _ before ?_ ?_, sendsAt_of_flag hbbr _ _ hflag hrate,
    agreedRate_le config auth, agreedRate_le_serverRx⟩
  · rw [hcells]
    simp [initialCells]
  · rw [hcells]
    simp [initialCells]

/-- A server that announces half of the cap, and a connection whose controller is cloned after the
handshake. -/
theorem upload_paced_half :
    let config : Config := { txBps := 1000 }
    let resp : Response :=
      ⟨233, fun name => if name = "Hysteria-CC-RX" then some ⟨some "500".toList⟩ else none⟩
    let auth : AuthResponse := ⟨false, 500, false⟩
    let before : List (Congestion.Event Duration) := [.build 0 0 1200]
    let after : List (Congestion.Event Duration) := [.path 0 (.ack 1 0 1 true 1), .cloneBox 0]
    let m : Memory := ⟨fun _ => 0, fun _ => false⟩
    authenticate resp = .ok auth ∧ ccRx resp ≠ some "auto".toList ∧
      SendsAt id startupBbr (agreedRate config auth)
        (connectionRun id startupBbr ⟨0, 0⟩ config auth m before after)
        (Record.run (before ++ negotiate config auth ++ after)) := by
  intro config resp auth before after m
  have hauth : authenticate resp = .ok auth := rfl
  have hfixed : ccRx resp ≠ some "auto".toList := by decide
  have hbefore : ∀ e ∈ before, e.stores = false := by
    intro e he
    rw [List.mem_singleton.1 he]
    rfl
  have hafter : ∀ e ∈ after, e.stores = false := by
    intro e he
    rcases List.mem_cons.1 he with rfl | hmem
    · rfl
    · rw [List.mem_singleton.1 hmem]
      rfl
  have hpaced := upload_paced id startupBbr (fun _ => rfl) ⟨0, 0⟩ config hauth hfixed m hbefore
    hafter
  exact ⟨hauth, hfixed, hpaced.2.1⟩

end Rsteria.Connect
