import Mathlib.Algebra.BigOperators.Pi
import Mathlib.Algebra.Order.Field.Basic
import Mathlib.Algebra.Order.Monoid.Prod
import Rsteria.Congestion
import Rsteria.Lib.SlidingWindow

/-!
# The window of Brutal

Brutal keeps the acknowledgements and losses of the last five seconds in a ring of slots, and
divides its window by the share of acknowledgements among them. The history of a controller is the
list of samples that its path events record: the second, the acknowledgements, and the lost packets,
counted with the packet size of that time. If times do not decrease, the sums over the slots after a
call are the totals of the samples of the last five seconds, as 64-bit numbers (`sums_exact`).

So the acknowledgement rate is a function of these totals. As long as together they fit into 64
bits, it stays within `4/5` and `1`, and does not grow with losses. The window is at least what the
target rate and the round-trip time give, at most five quarters of that, and not smaller after more
losses (`window_never_backs_off`). Totals that do not fit wrap around, and the rate may then exceed
`1` (`ackRate_of_overflow`).

## Main definitions

* `Congestion.samples`, `Congestion.recent` : what path events record, and its last five seconds.
* `Congestion.counters` : totals as 64-bit counters.
* `Congestion.Brutal.sums` : what `update_ack_rate` sums.
* `Congestion.WithLosses` : the same events with more losses between them.

## Main results

* `Congestion.sums_exact` : the slots are an exact sliding window.
* `Congestion.window_never_backs_off` : bounds of the window, and its dependence on losses.
* `Congestion.ackRate_of_overflow` : a history that the counters cannot hold.
-/

namespace Rsteria.Congestion

open SlidingWindow (Cell Latest total windowSum)

variable {ρ : Type}

/-! ### Samples -/

/-- The time of a call that records a sample. -/
def PathEvent.time? : PathEvent ρ → Option Instant
  | .ack now _ _ _ _ => some now
  | .congestion now _ _ _ => some now
  | _ => none

/-- The whole seconds from `base` to `now`. -/
def second (base now : Instant) : ℕ := (now - base) / 10 ^ 9

/-- The packet size after an event. -/
def PathEvent.nextMtu (mtu : ℕ) : PathEvent ρ → ℕ
  | .mtuUpdate newMtu => newMtu.toNat
  | _ => mtu

/-- The smoothed round-trip time after an event. -/
def PathEvent.nextSrtt (get : ρ → Duration) (srtt : Duration) : PathEvent ρ → Duration
  | .ack _ _ _ _ rtt => get rtt
  | _ => srtt

/-- What an event records: the second, the acknowledgements and the lost packets. -/
def PathEvent.sample (base : Instant) (mtu : ℕ) : PathEvent ρ → Option (ℕ × ℕ × ℕ)
  | .ack now _ _ _ _ => some (second base now, 1, 0)
  | .congestion now _ _ lostBytes =>
    some (second base now, 0, max (lostBytes.toNat / max mtu 1) 1)
  | _ => none

/-- What a sequence of events records. -/
def samples (base : Instant) (mtu : ℕ) : List (PathEvent ρ) → List (ℕ × ℕ × ℕ)
  | [] => []
  | e :: es => (e.sample base mtu).toList ++ samples base (e.nextMtu mtu) es

/-- The seconds of the calls that record a sample. -/
def seconds (base : Instant) (es : List (PathEvent ρ)) : List ℕ :=
  (es.filterMap PathEvent.time?).map (second base)

/-- Times do not decrease. -/
def Chronological (base : Instant) (es : List (PathEvent ρ)) : Prop :=
  (seconds base es).Pairwise (· ≤ ·)

instance (base : Instant) (es : List (PathEvent ρ)) : Decidable (Chronological base es) :=
  inferInstanceAs (Decidable (List.Pairwise _ _))

/-- The acknowledgements and losses in the five seconds up to the last sample. -/
def lastWindow (h : List (ℕ × ℕ × ℕ)) : ℕ × ℕ :=
  match h.getLast? with
  | some (s, _) => total (s < · + slotCount) h
  | none => 0

/-- The acknowledgements and losses in the five seconds up to the last call that records. -/
def recent (base : Instant) (mtu : ℕ) (es : List (PathEvent ρ)) : ℕ × ℕ :=
  lastWindow (samples base mtu es)

theorem map_fst_samples (base : Instant) (mtu : ℕ) (es : List (PathEvent ρ)) :
    (samples base mtu es).map Prod.fst = seconds base es := by
  induction es generalizing mtu with
  | nil => rfl
  | cons e es ih =>
    rw [samples, List.map_append, ih, seconds, seconds]
    cases e with
    | _ => rfl

/-! ### The slots as a ring -/

/-- Totals as 64-bit counters. -/
def counters : ℕ × ℕ →+ UInt64 × UInt64 where
  toFun totals := (UInt64.ofNat totals.1, UInt64.ofNat totals.2)
  map_zero' := rfl
  map_add' a b := Prod.ext (UInt64.ofNat_add a.1 b.1) (UInt64.ofNat_add a.2 b.2)

theorem toNat_counters_eq_iff (totals : ℕ × ℕ) :
    ((counters totals).1.toNat, (counters totals).2.toNat) = totals ↔
      totals.1 < 2 ^ 64 ∧ totals.2 < 2 ^ 64 := by
  refine ⟨fun h => ?_, fun h => Prod.ext ?_ ?_⟩
  · rw [← h]
    exact ⟨UInt64.toNat_lt _, UInt64.toNat_lt _⟩
  · exact UInt64.toNat_ofNat_of_lt' h.1
  · exact UInt64.toNat_ofNat_of_lt' h.2

/-- The acknowledgement rate for given acknowledgements and losses. -/
def rateOf (sums : UInt64 × UInt64) : ℚ :=
  if sums.1 + sums.2 < minSampleCount then 1
  else max ((sums.1.toNat : ℚ) / (sums.1 + sums.2).toNat) minAckRate

namespace Brutal

/-- The acknowledgements and losses that `update_ack_rate` sums. -/
def sums (b : Brutal) (nowTs : ℤ) : UInt64 × UInt64 :=
  let recent := b.slots.toList.filter fun s => ¬ s.ts < nowTs - slotCount
  ((recent.map Slot.ack).sum, (recent.map Slot.loss).sum)

/-- The slots as cells that count acknowledgements and losses. -/
def ring (b : Brutal) : Fin slotCount → Cell (UInt64 × UInt64) := fun i =>
  ⟨(b.slots.get i).ts, (b.slots.get i).ack, (b.slots.get i).loss⟩

instance : NeZero slotCount := ⟨by decide⟩

theorem updateAckRate_eq (b : Brutal) (nowTs : ℤ) :
    b.updateAckRate nowTs = { b with ackRate := rateOf (b.sums nowTs) } := by
  rw [rateOf]
  by_cases hfew : (b.sums nowTs).1 + (b.sums nowTs).2 < minSampleCount
  · rw [if_pos hfew]
    exact if_pos hfew
  · rw [if_neg hfew]
    exact if_neg hfew

theorem ring_new (rate : ℕ) (mtu : UInt16) (base : Instant) :
    (new rate mtu base).ring = fun _ => Cell.unused := by
  funext i
  simp [ring, new, Slot.default, Cell.unused, Vector.get]

/-- The slot of the current second after a sample; the other slots do not change. -/
theorem slots_record (b : Brutal) (now : Instant) (ack loss : UInt64) :
    let t := second b.base now
    let i := Fin.ofNat slotCount t
    let slot := b.slots.get i
    (b.record now ack loss).slots = b.slots.set i
      (if slot.ts = t then { slot with ack := slot.ack + ack, loss := slot.loss + loss }
      else ⟨t, ack, loss⟩) := by
  rw [record, updateAckRate_eq]
  rfl

/-- The rate after a sample is that of the sums. -/
theorem ackRate_record (b : Brutal) (now : Instant) (ack loss : UInt64) :
    (b.record now ack loss).ackRate =
      rateOf ((b.record now ack loss).sums (second b.base now)) := by
  rw [record, updateAckRate_eq]
  rfl

/-- Recording a sample records it in the ring. -/
theorem ring_record (b : Brutal) (now : Instant) (ack loss : UInt64) :
    (b.record now ack loss).ring =
      SlidingWindow.record b.ring (second b.base now) (ack, loss) := by
  funext j
  rw [ring, slots_record, SlidingWindow.record]
  by_cases hj : j = Fin.ofNat slotCount (second b.base now)
  · subst hj
    have hset (slot : Slot) : (b.slots.set (Fin.ofNat slotCount (second b.base now)) slot).get
        (Fin.ofNat slotCount (second b.base now)) = slot := Vector.getElem_set_self _
    rw [Function.update_self, hset]
    by_cases hts : (b.slots.get (Fin.ofNat slotCount (second b.base now))).ts = second b.base now
    · have hstamp : (b.ring (Fin.ofNat slotCount (second b.base now))).stamp = second b.base now :=
        hts
      rw [if_pos hts, if_pos hstamp]
      exact congrArg (Cell.mk · _) hts
    · have hstamp : (b.ring (Fin.ofNat slotCount (second b.base now))).stamp ≠ second b.base now :=
        hts
      rw [if_neg hts, if_neg hstamp]
  · have hne : (Fin.ofNat slotCount (second b.base now) : ℕ) ≠ j := fun heq => hj (Fin.ext heq.symm)
    have hset (slot : Slot) : (b.slots.set (Fin.ofNat slotCount (second b.base now)) slot).get j =
        b.slots.get j := Vector.getElem_set_ne _ _ hne
    rw [Function.update_of_ne hj, hset]
    rfl

/-- What is summed are the cells that are not expired. -/
theorem sums_eq (b : Brutal) (t : ℕ) : b.sums t = windowSum b.ring t := by
  have hlist : b.slots.toList = List.ofFn b.slots.get :=
    List.ext_getElem (by simp) fun i hi _ => by
      rw [List.getElem_ofFn]
      rfl
  have hsum (f : Slot → UInt64) :
      ((b.slots.toList.filter fun s => ¬ s.ts < (t : ℤ) - slotCount).map f).sum =
        ∑ i, if (b.slots.get i).ts < (t : ℤ) - slotCount then 0 else f (b.slots.get i) := by
    have hite := List.sum_map_ite (fun s : Slot => s.ts < (t : ℤ) - slotCount) (fun _ => 0) f
      b.slots.toList
    have hzero : ((b.slots.toList.filter fun s => s.ts < (t : ℤ) - slotCount).map
        fun _ => (0 : UInt64)).sum = 0 := by simp
    rw [hzero, zero_add] at hite
    rw [← hite, hlist, List.map_ofFn, List.sum_ofFn]
    rfl
  refine Prod.ext ?_ ?_
  · rw [windowSum, Prod.fst_sum]
    refine (hsum Slot.ack).trans (Finset.sum_congr rfl fun i _ => ?_)
    exact (apply_ite Prod.fst ((b.ring i).stamp < (t : ℤ) - slotCount) 0 (b.ring i).count).symm
  · rw [windowSum, Prod.snd_sum]
    refine (hsum Slot.loss).trans (Finset.sum_congr rfl fun i _ => ?_)
    exact (apply_ite Prod.snd ((b.ring i).stamp < (t : ℤ) - slotCount) 0 (b.ring i).count).symm

end Brutal

/-! ### The history of a controller -/

/-- A history as the slots count it. -/
def counted (h : List (ℕ × ℕ × ℕ)) : List (ℕ × UInt64 × UInt64) :=
  h.map fun s => (s.1, counters s.2)

/-- A controller holds the history `h`: its slots are the latest, and its rate is that of the last
five seconds. -/
structure Tracks (b : Brutal) (h : List (ℕ × ℕ × ℕ)) : Prop where
  latest : Latest b.ring (counted h)
  ackRate_eq : b.ackRate = rateOf (counters (lastWindow h))

theorem le_of_mem_counted {h : List (ℕ × ℕ × ℕ)} {t : ℕ} (ht : ∀ s ∈ h, s.1 ≤ t) :
    ∀ s ∈ counted h, s.1 ≤ t := by
  intro s hs
  obtain ⟨s', hs', rfl⟩ := List.mem_map.1 hs
  exact ht s' hs'

section Tracks

variable {b : Brutal} {h : List (ℕ × ℕ × ℕ)} {get : ρ → Duration}

theorem tracks_new (rate : ℕ) (mtu : UInt16) (base : Instant) : Tracks (.new rate mtu base) [] where
  latest := by
    rw [Brutal.ring_new]
    exact SlidingWindow.latest_unused
  ackRate_eq := rfl

theorem lastWindow_eq {t : ℕ} (hlast : (h.map Prod.fst).getLast? = some t) :
    lastWindow h = total (t < · + slotCount) h := by
  rw [List.getLast?_map, Option.map_eq_some_iff] at hlast
  obtain ⟨s, hs, rfl⟩ := hlast
  rw [lastWindow, hs]

theorem latest_record (hlatest : Latest b.ring (counted h)) (now : Instant) (ack loss : ℕ)
    (ht : ∀ s ∈ h, s.1 ≤ second b.base now) :
    Latest (b.record now (UInt64.ofNat ack) (UInt64.ofNat loss)).ring
      (counted (h ++ [(second b.base now, ack, loss)])) := by
  rw [Brutal.ring_record, counted, List.map_append]
  exact hlatest.record (le_of_mem_counted ht) _

/-- The sums over slots that are the latest, at the time of the last sample. -/
theorem sums_of_latest (hlatest : Latest b.ring (counted h)) {t : ℕ} (ht : ∀ s ∈ h, s.1 ≤ t)
    (hlast : ∃ s ∈ h, s.1 = t) : b.sums t = counters (total (t < · + slotCount) h) := by
  obtain ⟨s, hs, rfl⟩ := hlast
  rw [Brutal.sums_eq, ← SlidingWindow.total_map]
  exact SlidingWindow.windowSum_eq hlatest (le_of_mem_counted ht)
    ⟨_, List.mem_map_of_mem hs, rfl⟩

/-- A sample at the latest time or later is added to the history. -/
theorem Tracks.record (hb : Tracks b h) (now : Instant) (ack loss : ℕ)
    (ht : ∀ s ∈ h, s.1 ≤ second b.base now) :
    Tracks (b.record now (UInt64.ofNat ack) (UInt64.ofNat loss))
      (h ++ [(second b.base now, ack, loss)]) where
  latest := latest_record hb.latest now ack loss ht
  ackRate_eq := by
    rw [Brutal.ackRate_record, lastWindow_eq (t := second b.base now) (by simp)]
    refine congrArg rateOf (sums_of_latest (latest_record hb.latest now ack loss ht) ?_ ?_)
    · intro s hs
      rcases List.mem_append.1 hs with hs | hs
      · exact ht s hs
      · rw [List.mem_singleton.1 hs]
    · exact ⟨(second b.base now, ack, loss), by simp, rfl⟩

theorem fields_record (b : Brutal) (now : Instant) (ack loss : UInt64) :
    (b.record now ack loss).mtu = b.mtu ∧ (b.record now ack loss).srtt = b.srtt ∧
      (b.record now ack loss).base = b.base := by
  rw [Brutal.record, Brutal.updateAckRate_eq]
  exact ⟨rfl, rfl, rfl⟩

/-- What an event does to the fields that are not counters. -/
theorem fields_handle (get : ρ → Duration) (b : Brutal) (e : PathEvent ρ) :
    ((Brutal.controller get).handle b e).mtu = e.nextMtu b.mtu ∧
      ((Brutal.controller get).handle b e).srtt = e.nextSrtt get b.srtt ∧
      ((Brutal.controller get).handle b e).base = b.base := by
  cases e with
  | sent now bytes last => exact ⟨rfl, rfl, rfl⟩
  | ack now sent bytes appLimited rtt => exact fields_record { b with srtt := get rtt } now 1 0
  | endAcks now inFlight appLimited largest => exact ⟨rfl, rfl, rfl⟩
  | congestion now sent persistent lost => exact fields_record b now 0 _
  | mtuUpdate newMtu => exact ⟨rfl, rfl, rfl⟩

/-- An event adds its sample to the history. -/
theorem Tracks.handle (hb : Tracks b h) (e : PathEvent ρ)
    (ht : ∀ s ∈ e.sample b.base b.mtu, ∀ s' ∈ h, s'.1 ≤ s.1) :
    Tracks ((Brutal.controller get).handle b e) (h ++ (e.sample b.base b.mtu).toList) := by
  cases e with
  | sent now bytes last =>
    simp only [PathEvent.sample, Option.toList_none, List.append_nil]
    exact hb
  | ack now sent bytes appLimited rtt =>
    have hsrtt : Tracks { b with srtt := get rtt } h := ⟨hb.latest, hb.ackRate_eq⟩
    exact hsrtt.record now 1 0 (ht _ rfl)
  | endAcks now inFlight appLimited largest =>
    simp only [PathEvent.sample, Option.toList_none, List.append_nil]
    exact hb
  | congestion now sent persistent lost => exact hb.record now 0 _ (ht _ rfl)
  | mtuUpdate newMtu =>
    simp only [PathEvent.sample, Option.toList_none, List.append_nil]
    exact ⟨hb.latest, hb.ackRate_eq⟩

/-- A sequence of events adds its samples to the history. -/
theorem Tracks.feed (hb : Tracks b h) (es : List (PathEvent ρ))
    (hes : (h ++ samples b.base b.mtu es).Pairwise fun s s' => s.1 ≤ s'.1) :
    Tracks ((Brutal.controller get).feed b es) (h ++ samples b.base b.mtu es) := by
  induction es generalizing b h with
  | nil =>
    rw [samples, List.append_nil]
    exact hb
  | cons e es ih =>
    obtain ⟨hmtu, -, hbase⟩ := fields_handle get b e
    rw [samples, ← List.append_assoc] at hes ⊢
    have hstep : Tracks ((Brutal.controller get).handle b e)
        (h ++ (e.sample b.base b.mtu).toList) := by
      refine hb.handle e fun s hs s' hs' => ?_
      rw [List.append_assoc] at hes
      exact (List.pairwise_append.1 hes).2.2 s' hs' s
        (List.mem_append_left _ (Option.mem_toList.2 hs))
    have hsamples : samples b.base (e.nextMtu b.mtu) es = samples
        ((Brutal.controller get).handle b e).base ((Brutal.controller get).handle b e).mtu es := by
      rw [hmtu, hbase]
    rw [hsamples] at hes ⊢
    exact ih hstep hes

end Tracks

/-! ### Runs -/

section Runs

variable (get : ρ → Duration) (rate : ℕ) (mtu : UInt16) (base : Instant)

/-- A new controller that was told of a sequence of events. -/
def Brutal.fed (es : List (PathEvent ρ)) : Brutal :=
  (Brutal.controller get).feed (.new rate mtu base) es

theorem base_feed (b : Brutal) (es : List (PathEvent ρ)) :
    ((Brutal.controller get).feed b es).base = b.base := by
  induction es generalizing b with
  | nil => rfl
  | cons e es ih => exact (ih _).trans (fields_handle get b e).2.2

variable {es : List (PathEvent ρ)} {base}

theorem Chronological.samples (hes : Chronological base es) (mtu : ℕ) :
    (samples base mtu es).Pairwise fun s s' => s.1 ≤ s'.1 := by
  rw [Chronological, ← map_fst_samples base mtu] at hes
  exact List.pairwise_map.1 hes

/-- A controller holds the history of what it was told. -/
theorem tracks_fed (hes : Chronological base es) :
    Tracks (Brutal.fed get rate mtu base es) (samples base mtu.toNat es) :=
  (tracks_new rate mtu base).feed es (hes.samples mtu.toNat)

/-- The last second is that of the last call that records. -/
theorem recent_eq {e : PathEvent ρ} {now : Instant} (he : e.time? = some now)
    {after : List (PathEvent ρ)} (hafter : ∀ x ∈ after, x.time? = none) :
    recent base mtu.toNat (es ++ e :: after) =
      total (second base now < · + slotCount) (samples base mtu.toNat (es ++ e :: after)) := by
  have hnone : after.filterMap PathEvent.time? = [] := List.filterMap_eq_nil_iff.2 hafter
  refine lastWindow_eq ?_
  rw [map_fst_samples]
  simp [seconds, he, hnone]

/-- The last sample is that of the last call, and no other is later. -/
theorem le_of_mem_samples {e : PathEvent ρ} {now : Instant} (he : e.time? = some now)
    (hes : Chronological base (es ++ [e])) :
    (∃ s ∈ samples base mtu.toNat (es ++ [e]), s.1 = second base now) ∧
      ∀ s ∈ samples base mtu.toNat (es ++ [e]), s.1 ≤ second base now := by
  have hseconds : seconds base (es ++ [e]) = seconds base es ++ [second base now] := by
    simp [seconds, he]
  have hmem (t : ℕ) : t ∈ seconds base (es ++ [e]) ↔
      ∃ s ∈ samples base mtu.toNat (es ++ [e]), s.1 = t := by
    rw [← map_fst_samples base mtu.toNat, List.mem_map]
  refine ⟨(hmem _).1 (by simp [hseconds]), fun s hs => ?_⟩
  have hsec := (hmem s.1).2 ⟨s, hs, rfl⟩
  rw [hseconds, List.mem_append, List.mem_singleton] at hsec
  rcases hsec with hsec | hsec
  · rw [Chronological, hseconds] at hes
    exact (List.pairwise_append.1 hes).2.2 s.1 hsec _ List.mem_cons_self
  · exact hsec.le

variable (base)

/-- **The slots are an exact sliding window**: after a call that records a sample, the sums are the
totals of the samples of the current second and the four before it, as 64-bit numbers. So they are
the totals themselves exactly if these fit into 64 bits. -/
theorem sums_exact (es : List (PathEvent ρ)) {e : PathEvent ρ} {now : Instant}
    (he : e.time? = some now) (hes : Chronological base (es ++ [e])) :
    let b := Brutal.fed get rate mtu base (es ++ [e])
    let s := second base now
    let totals := total (fun t => s ≤ t + 4 ∧ t ≤ s) (samples base mtu.toNat (es ++ [e]))
    b.sums (b.secs now) = (UInt64.ofNat totals.1, UInt64.ofNat totals.2) ∧
      (((b.sums (b.secs now)).1.toNat, (b.sums (b.secs now)).2.toNat) = totals ↔
        totals.1 < 2 ^ 64 ∧ totals.2 < 2 ^ 64) ∧
      b.ackRate = rateOf (b.sums (b.secs now)) := by
  intro b s totals
  obtain ⟨hlast, hle⟩ := le_of_mem_samples mtu he hes
  have htracks : Tracks b (samples base mtu.toNat (es ++ [e])) := tracks_fed get rate mtu hes
  have hsecs : b.secs now = s := by
    rw [Brutal.secs, show b.base = base from base_feed ..]
    rfl
  have htotals : totals = total (s < · + slotCount) (samples base mtu.toNat (es ++ [e])) := by
    refine SlidingWindow.total_congr fun x hx => ?_
    have hx := hle x hx
    rw [show slotCount = 5 from rfl]
    omega
  have hsums : b.sums (b.secs now) = counters totals := by
    rw [hsecs, htotals]
    exact sums_of_latest htracks.latest hle hlast
  refine ⟨hsums, ?_, ?_⟩
  · rw [hsums]
    exact toNat_counters_eq_iff totals
  · rw [hsums, htracks.ackRate_eq, htotals]
    exact congrArg (fun totals => rateOf (counters totals)) (recent_eq mtu he (by simp))

/-- The slot of second 0 is overwritten in second 5, and the one of second 4 was never used. -/
theorem sums_exact_after_gap :
    let es : List (PathEvent Duration) :=
      [.ack 0 0 1200 false 1, .congestion (5 * 10 ^ 9) 0 false 2500]
    let e : PathEvent Duration := .ack (9 * 10 ^ 9) 0 1200 false 1
    let b := Brutal.fed id 0 1200 0 (es ++ [e])
    Chronological 0 (es ++ [e]) ∧ b.sums (b.secs (9 * 10 ^ 9)) = (1, 2) := by
  intro es e b
  have hes : Chronological 0 (es ++ [e]) := by decide
  exact ⟨hes, (sums_exact id 0 1200 0 es (e := e) rfl hes).1.trans (by decide)⟩

end Runs

/-! ### The window -/

/-- The acknowledgements and losses together fit into 64 bits. -/
def Fits (totals : ℕ × ℕ) : Prop := totals.1 + totals.2 < 2 ^ 64

instance (totals : ℕ × ℕ) : Decidable (Fits totals) := inferInstanceAs (Decidable (_ < _))

/-- The acknowledgement rate for given acknowledgements and losses that do not wrap around. -/
def shareOf (totals : ℕ × ℕ) : ℚ :=
  if totals.1 + totals.2 < 50 then 1
  else max ((totals.1 : ℚ) / (totals.1 + totals.2 : ℕ)) minAckRate

theorem rateOf_eq_shareOf {sums : UInt64 × UInt64} (h : Fits (sums.1.toNat, sums.2.toNat)) :
    rateOf sums = shareOf (sums.1.toNat, sums.2.toNat) := by
  have hadd : (sums.1 + sums.2).toNat = sums.1.toNat + sums.2.toNat := by
    rw [UInt64.toNat_add]
    exact Nat.mod_eq_of_lt h
  have hfew : sums.1 + sums.2 < minSampleCount ↔ sums.1.toNat + sums.2.toNat < 50 := by
    rw [UInt64.lt_iff_toNat_lt, hadd]
    rfl
  simp only [rateOf, shareOf, hfew, hadd]

theorem rateOf_counters {totals : ℕ × ℕ} (h : Fits totals) :
    rateOf (counters totals) = shareOf totals := by
  have hfits : totals.1 < 2 ^ 64 ∧ totals.2 < 2 ^ 64 := by
    rw [Fits] at h
    omega
  have heq := (toNat_counters_eq_iff totals).2 hfits
  rw [rateOf_eq_shareOf (heq.symm ▸ h), heq]

theorem shareOf_bounds (totals : ℕ × ℕ) : minAckRate ≤ shareOf totals ∧ shareOf totals ≤ 1 := by
  rw [shareOf]
  split_ifs with hfew
  · exact ⟨by norm_num [minAckRate], le_refl 1⟩
  · refine ⟨le_max_right _ _, max_le ?_ (by norm_num [minAckRate])⟩
    exact div_le_one_of_le₀ (Nat.cast_le.2 (Nat.le_add_right _ _)) (Nat.cast_nonneg _)

/-- More losses do not raise the rate, also not by reaching the number of samples it needs. -/
theorem shareOf_antitone {totals totals' : ℕ × ℕ} (hack : totals.1 = totals'.1)
    (hloss : totals.2 ≤ totals'.2) : shareOf totals' ≤ shareOf totals := by
  by_cases hfew : totals.1 + totals.2 < 50
  · rw [show shareOf totals = 1 from if_pos hfew]
    exact (shareOf_bounds totals').2
  · have hfew' : ¬ totals'.1 + totals'.2 < 50 := by omega
    have hpos : 0 < totals.1 + totals.2 := by omega
    rw [shareOf, shareOf, if_neg hfew, if_neg hfew', ← hack]
    refine max_le_max ?_ (le_refl _)
    refine div_le_div_of_nonneg_left (Nat.cast_nonneg _) (Nat.cast_pos.2 hpos) ?_
    exact Nat.cast_le.2 (Nat.add_le_add_left hloss _)

/-- The conversion of a float to `u64`. -/
def asU64 (x : ℚ) : ℕ := min ⌊x⌋₊ (2 ^ 64 - 1)

theorem asU64_mono {x y : ℚ} (h : x ≤ y) : asU64 x ≤ asU64 y :=
  min_le_min (Nat.floor_le_floor h) (le_refl _)

namespace Brutal

/-- The bytes that the target rate sends in a round trip. -/
def target (b : Brutal) (bps : UInt64) : ℚ := bps.toNat * (b.srtt / 10 ^ 9)

variable {b b' : Brutal} {bps : UInt64}

theorem target_nonneg : 0 ≤ b.target bps :=
  mul_nonneg (Nat.cast_nonneg _) (div_nonneg (Nat.cast_nonneg _) (by norm_num))

theorem windowAt_eq (hsrtt : b.srtt ≠ 0) :
    b.windowAt bps = max (asU64 (b.target bps / b.ackRate)) b.floor :=
  if_neg hsrtt

/-- The window is between the target and five quarters of it. -/
theorem windowAt_bounds (hrate : minAckRate ≤ b.ackRate ∧ b.ackRate ≤ 1) (hsrtt : 0 < b.srtt) :
    max b.floor (asU64 (b.target bps)) ≤ b.windowAt bps ∧
      b.windowAt bps ≤ max b.floor (asU64 (b.target bps * (5 / 4))) := by
  have hpos : 0 < b.ackRate := lt_of_lt_of_le (by norm_num [minAckRate]) hrate.1
  have hlow : b.target bps ≤ b.target bps / b.ackRate := by
    rw [le_div_iff₀ hpos]
    exact mul_le_of_le_one_right target_nonneg hrate.2
  have hhigh : b.target bps / b.ackRate ≤ b.target bps * (5 / 4) := by
    rw [div_le_iff₀ hpos, mul_assoc]
    refine le_mul_of_one_le_right target_nonneg ?_
    have hrate' : (4 / 5 : ℚ) ≤ b.ackRate := hrate.1
    linarith
  rw [windowAt_eq hsrtt.ne', max_comm]
  exact ⟨max_le_max (asU64_mono hlow) (le_refl _), by
    rw [max_comm b.floor]
    exact max_le_max (asU64_mono hhigh) (le_refl _)⟩

/-- A smaller rate gives a window that is not smaller. -/
theorem windowAt_mono (hmtu : b.mtu = b'.mtu) (hsrtt : b.srtt = b'.srtt) (hpos : 0 < b'.ackRate)
    (hrate : b'.ackRate ≤ b.ackRate) : b.windowAt bps ≤ b'.windowAt bps := by
  have hfloor : b.floor = b'.floor := by rw [floor, floor, hmtu]
  by_cases hzero : b.srtt = 0
  · rw [show b.windowAt bps = b.floor from if_pos hzero,
      show b'.windowAt bps = b'.floor from if_pos (hsrtt ▸ hzero), hfloor]
  · have htarget : b.target bps = b'.target bps := by rw [target, target, hsrtt]
    rw [windowAt_eq hzero, windowAt_eq (hsrtt ▸ hzero), hfloor, htarget]
    refine max_le_max (asU64_mono ?_) (le_refl _)
    exact div_le_div_of_nonneg_left target_nonneg hpos hrate

end Brutal

/-! ### More losses -/

/-- The same events with more losses between them. -/
inductive WithLosses : List (PathEvent ρ) → List (PathEvent ρ) → Prop where
  | nil : WithLosses [] []
  | same (e : PathEvent ρ) {es es' : List (PathEvent ρ)} (h : WithLosses es es') :
    WithLosses (e :: es) (e :: es')
  | loss (now sent : Instant) (isPersistentCongestion : Bool) (lostBytes : UInt64)
    {es es' : List (PathEvent ρ)} (h : WithLosses es es') :
    WithLosses es (.congestion now sent isPersistentCongestion lostBytes :: es')

section WithLosses

variable {es es' : List (PathEvent ρ)}

theorem WithLosses.refl (es : List (PathEvent ρ)) : WithLosses es es := by
  induction es with
  | nil => exact .nil
  | cons e es ih => exact .same e ih

theorem WithLosses.append (h : WithLosses es es') (after : List (PathEvent ρ)) :
    WithLosses (es ++ after) (es' ++ after) := by
  induction h with
  | nil => exact .refl after
  | same e _ ih => exact .same e ih
  | loss now sent persistent lost _ ih => exact .loss now sent persistent lost ih

/-- The packet size and the round-trip time do not depend on losses. -/
theorem WithLosses.fields (h : WithLosses es es') (get : ρ → Duration) {b b' : Brutal}
    (hmtu : b.mtu = b'.mtu) (hsrtt : b.srtt = b'.srtt) :
    ((Brutal.controller get).feed b es).mtu = ((Brutal.controller get).feed b' es').mtu ∧
      ((Brutal.controller get).feed b es).srtt = ((Brutal.controller get).feed b' es').srtt := by
  induction h generalizing b b' with
  | nil => exact ⟨hmtu, hsrtt⟩
  | same e _ ih =>
    obtain ⟨hmtu_e, hsrtt_e, -⟩ := fields_handle get b e
    obtain ⟨hmtu_e', hsrtt_e', -⟩ := fields_handle get b' e
    exact ih (by rw [hmtu_e, hmtu_e', hmtu]) (by rw [hsrtt_e, hsrtt_e', hsrtt])
  | loss now sent persistent lost _ ih =>
    obtain ⟨hmtu_e, hsrtt_e, -⟩ :=
      fields_handle get b' (.congestion now sent persistent lost)
    exact ih (hmtu.trans hmtu_e.symm) (hsrtt.trans hsrtt_e.symm)

/-- There are as many acknowledgements at any times, and not fewer losses. -/
theorem WithLosses.total_samples (h : WithLosses es es') (p : ℕ → Prop) [DecidablePred p]
    (base : Instant) (mtu : ℕ) :
    (total p (samples base mtu es)).1 = (total p (samples base mtu es')).1 ∧
      (total p (samples base mtu es)).2 ≤ (total p (samples base mtu es')).2 := by
  induction h generalizing mtu with
  | nil => exact ⟨rfl, le_refl _⟩
  | same e _ ih =>
    obtain ⟨hack, hloss⟩ := ih (e.nextMtu mtu)
    simp only [samples, SlidingWindow.total_append, Prod.fst_add, Prod.snd_add]
    exact ⟨by rw [hack], Nat.add_le_add_left hloss _⟩
  | loss now sent persistent lost _ ih =>
    obtain ⟨hack, hloss⟩ := ih mtu
    simp only [samples, PathEvent.sample, PathEvent.nextMtu, Option.toList_some,
      List.singleton_append, SlidingWindow.total_cons]
    split_ifs
    · simp only [Prod.fst_add, Prod.snd_add]
      exact ⟨by rw [hack, zero_add], Nat.le_trans hloss (Nat.le_add_left _ _)⟩
    · rw [zero_add]
      exact ⟨hack, hloss⟩

/-- **The window never backs off on loss**, as long as what is counted fits into 64 bits. The
acknowledgement rate is between `4/5` and `1`, and is `1` for less than 50 samples; the window is at
least the target and at most five quarters of it, if the floor is not larger; and more losses before
the last call that records do not make it smaller. -/
theorem window_never_backs_off (get : ρ → Duration) (rate : ℕ) (mtu : UInt16) (base : Instant)
    (m : Memory) (es : List (PathEvent ρ)) (hes : Chronological base es)
    (hfits : Fits (recent base mtu.toNat es)) :
    let fed := Brutal.fed get rate mtu base
    let window := fun es => (Brutal.controller get).window (fed es) m
    let floor := max ((fed es).mtu * 2) 10240
    let target : ℚ := (m.u64 rate).toNat * ((fed es).srtt / 10 ^ 9)
    (4 / 5 ≤ (fed es).ackRate ∧ (fed es).ackRate ≤ 1) ∧
      ((recent base mtu.toNat es).1 + (recent base mtu.toNat es).2 < 50 →
        (fed es).ackRate = 1) ∧
      (0 < (fed es).srtt → max floor (asU64 target) ≤ window es ∧
        window es ≤ max floor (asU64 (target * (5 / 4)))) ∧
      ∀ before before' e after, es = before ++ e :: after → e.time? ≠ none →
        (∀ x ∈ after, x.time? = none) → WithLosses before before' →
        Chronological base (before' ++ e :: after) →
        Fits (recent base mtu.toNat (before' ++ e :: after)) →
        window es ≤ window (before' ++ e :: after) := by
  intro fed window floor target
  have hrate (es : List (PathEvent ρ)) (hes : Chronological base es)
      (hfits : Fits (recent base mtu.toNat es)) :
      (fed es).ackRate = shareOf (recent base mtu.toNat es) := by
    rw [← rateOf_counters hfits]
    exact (tracks_fed get rate mtu hes).ackRate_eq
  have hbounds (es : List (PathEvent ρ)) (hes : Chronological base es)
      (hfits : Fits (recent base mtu.toNat es)) :
      minAckRate ≤ (fed es).ackRate ∧ (fed es).ackRate ≤ 1 := by
    rw [hrate es hes hfits]
    exact shareOf_bounds _
  have hcell (es : List (PathEvent ρ)) : window es = (fed es).windowAt (m.u64 rate) := by
    rw [← show (fed es).rate = rate from Brutal.rate_feed ..]
    rfl
  refine ⟨hbounds es hes hfits, fun hfew => ?_, fun hsrtt => ?_, ?_⟩
  · rw [hrate es hes hfits]
    exact if_pos hfew
  · rw [hcell]
    exact Brutal.windowAt_bounds (hbounds es hes hfits) hsrtt
  · rintro before before' e after rfl he hafter hlosses hes' hfits'
    obtain ⟨now, hnow⟩ := Option.ne_none_iff_exists'.1 he
    have happend := hlosses.append (e :: after)
    obtain ⟨hmtu, hsrtt⟩ := happend.fields get (b := .new rate mtu base) rfl rfl
    have hpos : 0 < (fed (before' ++ e :: after)).ackRate :=
      lt_of_lt_of_le (by norm_num [minAckRate]) (hbounds _ hes' hfits').1
    rw [hcell, hcell]
    refine Brutal.windowAt_mono hmtu hsrtt hpos ?_
    rw [hrate _ hes hfits, hrate _ hes' hfits', recent_eq mtu hnow hafter,
      recent_eq mtu hnow hafter]
    obtain ⟨hack, hloss⟩ :=
      happend.total_samples (second base now < · + slotCount) base mtu.toNat
    exact shareOf_antitone hack hloss

/-- Eighty acknowledgements, and a loss of twenty packets before the last of them. -/
theorem window_never_backs_off_twenty_lost :
    let m : Memory := ⟨fun _ => 1000000, fun _ => false⟩
    let before : List (PathEvent Duration) := List.replicate 79 (.ack 0 0 1200 false (10 ^ 8))
    let e : PathEvent Duration := .ack (10 ^ 9) 0 1200 false (10 ^ 8)
    let loss : PathEvent Duration := .congestion 0 0 false 24000
    let window := fun es => (Brutal.controller id).window (Brutal.fed id 0 1200 0 es) m
    window (before ++ [e]) = 100000 ∧ window (loss :: before ++ [e]) = 125000 ∧
      window (before ++ [e]) ≤ window (loss :: before ++ [e]) := by
  intro m before e loss window
  have hes : Chronological 0 (before ++ [e]) := by decide +kernel
  have hes' : Chronological 0 (loss :: before ++ [e]) := by decide +kernel
  have hfits : Fits (recent 0 1200 (before ++ [e])) := by decide +kernel
  have hfits' : Fits (recent 0 1200 (loss :: before ++ [e])) := by decide +kernel
  obtain ⟨-, -, -, hlosses⟩ := window_never_backs_off id 0 1200 0 m (before ++ [e]) hes hfits
  refine ⟨by decide +kernel, by decide +kernel, ?_⟩
  exact hlosses before (loss :: before) e [] rfl (by simp [e, PathEvent.time?]) (by simp)
    (.loss 0 0 false 24000 (.refl before)) hes' hfits'

/-- One hundred acknowledgements and a loss that is reported as `2 ^ 64 - 50` packets: the counters
wrap around to fifty samples, so the rate is `2`, and the window is half of the target. -/
theorem ackRate_of_overflow :
    let m : Memory := ⟨fun _ => 1000000, fun _ => false⟩
    let es : List (PathEvent Duration) := List.replicate 100 (.ack 0 0 1 false (10 ^ 9)) ++
      [.congestion 0 0 false 18446744073709551566]
    let b := Brutal.fed id 0 1 0 es
    Chronological 0 es ∧ b.ackRate = 2 ∧ (Brutal.controller id).window b m = 500000 ∧
      asU64 ((m.u64 0).toNat * (b.srtt / 10 ^ 9)) = 1000000 := by
  decide +kernel

end WithLosses

end Rsteria.Congestion
