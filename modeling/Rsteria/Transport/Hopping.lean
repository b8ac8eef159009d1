import Rsteria.Transport.Compaction

/-!
# Port hopping is invisible

What a socket with obfuscation and port hopping hands to the inner socket and reports to QUIC, in
every run: sends go to one of the candidate addresses when ports are hopped, and where QUIC sends
them otherwise; what is received is reported to come from the address that QUIC dialled, or from
where it came. Everything else that is reported with a datagram is left alone, on all four branches
(`EventSafe`).

## Main definitions

* `Transport.Corresponds` : the datagrams that a receive reports.
* `Transport.EventSafe`, `Transport.RunSafe` : what an event and a run hand on and report.
* `Transport.Wraps` : the socket that an endpoint was built with, after any events.

## Main results

* `Transport.pollLoop_spec` : what a receive with obfuscation reports.
* `Transport.Wraps.eventSafe`, `Transport.runSafe_new` : every event of a run is safe.
-/

namespace Rsteria.Transport

open Buffer Protocol

section Receive

variable (blake2b256 : Bytes → Digest) (obfs : Salamander) (canonical : Option SocketAddr)

variable {blake2b256 obfs canonical} in
/-- What is reported are accepted entries of one batch, with their payloads. -/
theorem Answers.exists_delivered {bufs bufs' : List Bytes} {recvMeta recvMeta' : List RecvMeta}
    {polls : List InnerPoll} {n : ℕ} (h : Answers blake2b256 obfs canonical bufs recvMeta polls
      (.ready (.ok n), bufs', recvMeta')) :
    ∃ acc batch, Delivered blake2b256 obfs canonical acc n bufs' recvMeta' ∧
      .ready batch ∈ polls ∧ acc.Sublist batch := by
  generalize hanswer : (Poll.ready (Except.ok n), bufs', recvMeta') = answer at h
  induction h with
  | exhausted => simp at hanswer
  | pending polls => simp at hanswer
  | error e polls => simp at hanswer
  | empty polls =>
    simp only [Prod.mk.injEq, Poll.ready.injEq, Except.ok.injEq] at hanswer
    rw [hanswer.1]
    exact ⟨[], [], delivered_nil .., List.mem_cons_self, .refl _⟩
  | passed hne hbatch _ ih =>
    obtain ⟨acc, batch, hdelivered, hmem, hsub⟩ := ih hanswer
    exact ⟨acc, batch, hdelivered, List.mem_cons_of_mem _ hmem, hsub⟩
  | delivered hbatch hpos hdelivered =>
    simp only [Prod.mk.injEq, Poll.ready.injEq, Except.ok.injEq] at hanswer
    obtain ⟨rfl, rfl, rfl⟩ := hanswer
    exact ⟨_, _, hdelivered, List.mem_cons_self, accepted_sublist _ _⟩

/-- The loop of `poll_recv` stays within its buffers, and what it reports are the accepted entries
of one batch, with their payloads. -/
theorem pollLoop_spec {scratch : Bytes} {bufs : List Bytes} {recvMeta : List RecvMeta}
    {polls : List InnerPoll} (hscratch : bufs.length * scratchDatagram ≤ scratch.length)
    (hmeta : bufs.length ≤ recvMeta.length)
    (hpolls : ∀ batch, .ready batch ∈ polls → batch.length ≤ bufs.length) :
    ∃ answer, pollLoop blake2b256 obfs canonical scratch bufs recvMeta polls = some answer ∧
      ∀ n bufs' recvMeta', answer = (.ready (.ok n), bufs', recvMeta') →
        ∃ acc batch, Delivered blake2b256 obfs canonical acc n bufs' recvMeta' ∧
          .ready batch ∈ polls ∧ acc.Sublist batch := by
  obtain ⟨answer, hanswer, hanswers⟩ :=
    pollLoop_answers blake2b256 obfs canonical hscratch hmeta hpolls
  refine ⟨answer, hanswer, fun n bufs' recvMeta' heq => ?_⟩
  rw [heq] at hanswers
  exact hanswers.exists_delivered

end Receive

/-- Without obfuscation the inner socket writes the metadata of its batch, and the data to the front
of the buffers. -/
theorem fillBufs_spec {batch : List (RecvMeta × Bytes)} {bufs : List Bytes}
    {recvMeta : List RecvMeta} (hbatch : batch.length ≤ bufs.length)
    (hmeta : bufs.length ≤ recvMeta.length) :
    (fillBufs batch bufs recvMeta).2.take batch.length = batch.map Prod.fst ∧
      List.Forall₂ (fun p buf => p.2 <+: buf) batch
        ((fillBufs batch bufs recvMeta).1.take batch.length) := by
  induction batch generalizing bufs recvMeta with
  | nil => exact ⟨by simp, by simp⟩
  | cons p batch ih =>
    obtain ⟨m, data⟩ := p
    cases bufs with
    | nil => simp at hbatch
    | cons buf bufs =>
      cases recvMeta with
      | nil => simp at hmeta
      | cons m' recvMeta =>
        obtain ⟨hmetas, hdata⟩ := ih (Nat.le_of_succ_le_succ hbatch) (Nat.le_of_succ_le_succ hmeta)
        rw [fillBufs]
        refine ⟨?_, ?_⟩
        · simp only [List.length_cons, List.take_succ_cons, hmetas, List.map_cons]
        · simp only [List.length_cons, List.take_succ_cons]
          exact .cons (List.prefix_append _ _) hdata

/-! ### What an event hands on and reports -/

/-- The datagrams that a receive reports, with what the inner socket reported with them: those of a
batch as they are, or the accepted entries of a batch with their payloads. -/
inductive Corresponds (blake2b256 : Bytes → Digest) (obfs : Option Salamander) (c : RecvCall)
    (n : ℕ) (bufs : List Bytes) (recvMeta : List RecvMeta) : List RecvMeta → Prop where
  | plain (batch : List (RecvMeta × Bytes)) (hobfs : obfs = none)
    (hpoll : c.plain = .ready (.ok batch)) (hn : n = batch.length)
    (hdata : List.Forall₂ (fun p buf => p.2 <+: buf) batch (bufs.take n)) :
    Corresponds blake2b256 obfs c n bufs recvMeta (batch.map Prod.fst)
  | unmasked (key : Salamander) (batch acc : List Entry) (hobfs : obfs = some key)
    (hpoll : .ready batch ∈ c.polls) (hsub : acc.Sublist batch) (hn : n = acc.length)
    (hdata : ((bufs.zip recvMeta).take n).map (fun p => p.1.take p.2.len) =
      acc.map fun e => key.unmask blake2b256 e.data) :
    Corresponds blake2b256 obfs c n bufs recvMeta (acc.map Entry.recvMeta)

/-- What a receive reports: each datagram comes from the address that is to be reported for its
source, and the rest of its metadata is what the inner socket reported. -/
def Reports (blake2b256 : Bytes → Digest) (obfs : Option Salamander)
    (report : SocketAddr → SocketAddr) (c : RecvCall) (answer : RecvAnswer) : Prop :=
  ∀ n bufs recvMeta, answer = (.ready (.ok n), bufs, recvMeta) →
    ∃ src, Corresponds blake2b256 obfs c n bufs recvMeta src ∧
      (recvMeta.take n).map (fun m => (m.addr, m.ecn, m.dstIp)) =
        src.map fun m => (report m.addr, m.ecn, m.dstIp)

/-- An event is done without an index out of range. What a send hands on goes to an address that is
allowed for its destination, with the metadata of what was sent, and what a receive reports is what
the inner socket received. -/
def EventSafe (blake2b256 : Bytes → Digest) (obfs : Option Salamander)
    (allowed : SocketAddr → SocketAddr → Prop) (report : SocketAddr → SocketAddr) :
    SocketEvent → Option SocketOutput → Prop
  | .hop _, output => output = some .hopped
  | .send _ _ t, output => ∃ result handed, output = some (.sent result handed) ∧
    ∀ d ∈ handed, allowed t.destination d.destination ∧ d.ecn = t.ecn ∧ d.srcIp = t.srcIp
  | .recv c, output => ∃ answer, output = some (.received answer) ∧
    Reports blake2b256 obfs report c answer

/-- Every event of a run is safe, and finds the hop index, if there is one, in range. -/
def RunSafe (blake2b256 : Bytes → Digest) (obfs : Option Salamander)
    (allowed : SocketAddr → SocketAddr → Prop) (report : SocketAddr → SocketAddr)
    (s : Option ObfsHopSocket) (es : List SocketEvent) : Prop :=
  ∀ (t : ℕ) (e : SocketEvent), es[t]? = some e →
    (∀ w i, Mealy.final (socketStep blake2b256) s (es.take t) = some w → w.hopIndex = some i →
      i < w.hopAddrs.length) ∧
    ∃ output, (Mealy.outputs (socketStep blake2b256) s es)[t]? = some output ∧
      EventSafe blake2b256 obfs allowed report e output

/-- The address that is reported for a source. -/
def reportedAddr (canonical : SocketAddr) (hop : Option HopConfig) (addr : SocketAddr) :
    SocketAddr :=
  if hop.isSome then canonical else addr

/-- The address that a datagram may be sent to. -/
def AllowedAddr (hop : Option HopConfig) (dest addr : SocketAddr) : Prop :=
  match hop with
  | some cfg => addr ∈ cfg.addrs
  | none => addr = dest

/-- A socket that was built with these parameters, after any events. -/
structure Configured (canonical : SocketAddr) (obfs : Option Salamander) (hop : Option HopConfig)
    (w : ObfsHopSocket) : Prop where
  obfs_eq : w.obfs = obfs
  canonical_eq : w.canonical = canonical
  isSome_hopIndex : w.hopIndex.isSome = hop.isSome
  hopIndex_lt : ∀ i, w.hopIndex = some i → i < w.hopAddrs.length
  hopAddrs_eq : ∀ cfg, hop = some cfg → w.hopAddrs = cfg.addrs

/-- The socket of an endpoint that was built with these parameters, after any events. -/
def Wraps (canonical : SocketAddr) (obfs : Option Salamander) (hop : Option HopConfig) :
    Option ObfsHopSocket → Prop
  | some w => Configured canonical obfs hop w
  | none => obfs = none ∧ hop = none

variable {canonical : SocketAddr} {obfs : Option Salamander} {hop : Option HopConfig}
  {w : ObfsHopSocket}

/-- The socket as it is built: ports are hopped when there are two of them. -/
theorem wraps_new (canonical : SocketAddr) (obfs : Option Salamander)
    (hhop : ∀ cfg, hop = some cfg → 1 < cfg.addrs.length) (r : ℕ) :
    Wraps canonical obfs hop (ObfsHopSocket.new canonical obfs hop r) := by
  rw [ObfsHopSocket.new]
  split_ifs with hbare
  · exact ⟨Option.isNone_iff_eq_none.1 hbare.1, Option.isNone_iff_eq_none.1 hbare.2⟩
  · cases hop with
    | none =>
      refine ⟨rfl, rfl, rfl, fun i hi => ?_, fun cfg hcfg => ?_⟩
      · exact absurd hi (by simp)
      · exact absurd hcfg (by simp)
    | some cfg =>
      have hlen : cfg.addrs.length > 1 := hhop cfg rfl
      simp only [hlen, dif_pos]
      refine ⟨rfl, rfl, rfl, fun i hi => ?_, fun _ hcfg =>
        congrArg HopConfig.addrs (Option.some.inj hcfg)⟩
      rw [← Option.some.inj hi]
      exact Nat.mod_lt r (Nat.zero_lt_of_lt hlen)

theorem Configured.hop_task (hw : Configured canonical obfs hop w) (r : ℕ) :
    Configured canonical obfs hop (w.hop r) where
  obfs_eq := hw.obfs_eq
  canonical_eq := hw.canonical_eq
  isSome_hopIndex := by rw [ObfsHopSocket.hop, Option.isSome_map, hw.isSome_hopIndex]
  hopIndex_lt i hi := by
    obtain ⟨j, hj, rfl⟩ := Option.map_eq_some_iff.1 hi
    exact Nat.mod_lt r (w.hopAddrs_pos (Option.isSome_of_mem hj))
  hopAddrs_eq := hw.hopAddrs_eq

/-- A send changes the write buffer only. -/
theorem Configured.trySend (hw : Configured canonical obfs hop w) (blake2b256 : Bytes → Digest)
    (salt : Salt) (inner : Except IoError Unit) (t : Transmit) :
    Configured canonical obfs hop (w.trySend blake2b256 salt inner t).2.2 := by
  simp only [ObfsHopSocket.trySend]
  split
  · exact hw
  · split
    · exact ⟨hw.obfs_eq, hw.canonical_eq, hw.isSome_hopIndex, hw.hopIndex_lt, hw.hopAddrs_eq⟩
    · exact ⟨hw.obfs_eq, hw.canonical_eq, hw.isSome_hopIndex, hw.hopIndex_lt, hw.hopAddrs_eq⟩

theorem Wraps.step {s : Option ObfsHopSocket} (hs : Wraps canonical obfs hop s)
    (blake2b256 : Bytes → Digest) (e : SocketEvent) :
    Wraps canonical obfs hop (socketStep blake2b256 s e).2 := by
  cases s with
  | none => cases e <;> exact hs
  | some w =>
    cases e with
    | hop r => exact Configured.hop_task hs r
    | send salt inner t => exact Configured.trySend hs blake2b256 salt inner t
    | recv c => exact hs

/-! ### Sends -/

/-- The address of a hop is a candidate. -/
theorem currentDest_mem (h : w.hopIndex.isSome = true) : w.currentDest ∈ w.hopAddrs := by
  rw [ObfsHopSocket.currentDest]
  split
  · exact List.get_mem _ _
  · rename_i hnone
    rw [hnone] at h
    exact absurd h (by simp)

/-- The address that a send goes to is allowed. -/
theorem Configured.allowed (hw : Configured canonical obfs hop w) (dest : SocketAddr) :
    AllowedAddr hop dest (if w.hopIndex.isSome then w.currentDest else dest) := by
  cases hop with
  | none =>
    have hnone : w.hopIndex.isSome = false := hw.isSome_hopIndex
    rw [hnone]
    rfl
  | some cfg =>
    have hsome : w.hopIndex.isSome = true := hw.isSome_hopIndex
    rw [if_pos hsome]
    have hmem := currentDest_mem hsome
    rwa [hw.hopAddrs_eq cfg rfl] at hmem

/-- What a send hands on. -/
theorem Configured.send (hw : Configured canonical obfs hop w) (blake2b256 : Bytes → Digest)
    (salt : Salt) (inner : Except IoError Unit) (t : Transmit) :
    ∀ d ∈ (w.trySend blake2b256 salt inner t).2.1,
      AllowedAddr hop t.destination d.destination ∧ d.ecn = t.ecn ∧ d.srcIp = t.srcIp := by
  have hallowed := hw.allowed t.destination
  cases hobfs : w.obfs with
  | none =>
    simp only [ObfsHopSocket.trySend, hobfs, List.mem_singleton]
    rintro d rfl
    exact ⟨hallowed, rfl, rfl⟩
  | some key =>
    rcases Nat.lt_or_ge scratchDatagram (t.contents.length + saltLen) with hlt | hle
    · rw [(trySend_obfs_of_lt blake2b256 hobfs salt inner hlt).2]
      exact fun d hd => absurd hd List.not_mem_nil
    · rw [(trySend_obfs_of_le blake2b256 hobfs salt inner hle).2]
      simp only [List.mem_singleton]
      rintro d rfl
      exact ⟨hallowed, rfl, rfl⟩

/-! ### Receives -/

/-- What the inner socket reports by itself. -/
theorem innerPollRecv_spec (c : RecvCall) {n : ℕ} {bufs : List Bytes} {recvMeta : List RecvMeta}
    (h : innerPollRecv c = (.ready (.ok n), bufs, recvMeta)) :
    ∃ batch, c.plain = .ready (.ok batch) ∧ n = batch.length ∧
      recvMeta.take n = batch.map Prod.fst ∧
      List.Forall₂ (fun p buf => p.2 <+: buf) batch (bufs.take n) := by
  rw [innerPollRecv] at h
  split at h
  · rename_i batch hplain
    obtain ⟨hn, hfill⟩ := Prod.mk.inj h
    have hn : batch.length = n := Except.ok.inj (Poll.ready.inj hn)
    have hspec := fillBufs_spec (c.plain_le batch hplain) c.length_le
    rw [hfill, hn] at hspec
    exact ⟨batch, hplain, hn.symm, hspec.1, hspec.2⟩
  · simp at h
  · simp at h

/-- What is reported with delivered entries. -/
theorem Delivered.take_recvMeta {key : Salamander} {canonical : Option SocketAddr}
    {acc : List Entry} {n : ℕ} {bufs : List Bytes} {recvMeta : List RecvMeta}
    (h : Delivered blake2b256 key canonical acc n bufs recvMeta) :
    recvMeta.take n = acc.map (Entry.payloadMeta canonical) := by
  have hlen := congrArg List.length h.contents
  rw [List.length_map, List.length_map, List.length_take, List.length_zip, ← h.out_eq] at hlen
  have hmetas := congrArg (List.map Prod.snd) h.contents
  rw [List.map_map, List.map_map, List.zip, List.take_zipWith] at hmetas
  have hsnd : ((bufs.take n).zip (recvMeta.take n)).map Prod.snd = recvMeta.take n := by
    refine List.map_snd_zip ?_
    rw [List.length_take, List.length_take]
    omega
  exact hsnd.symm.trans hmetas

/-- Without obfuscation a receive reports the batch of the inner socket. -/
theorem Configured.recv_plain (hw : Configured canonical none hop w) (blake2b256 : Bytes → Digest)
    (c : RecvCall) :
    ∃ answer, w.pollRecv blake2b256 c = some answer ∧
      Reports blake2b256 none (reportedAddr canonical hop) c answer := by
  simp only [ObfsHopSocket.pollRecv, hw.isSome_hopIndex, hw.obfs_eq, hw.canonical_eq]
  split
  · rename_i n bufs recvMeta hinner
    obtain ⟨batch, hplain, hn, hmetas, hdata⟩ := innerPollRecv_spec c hinner
    refine ⟨_, rfl, fun n' bufs' recvMeta' heq => ?_⟩
    simp only [Prod.mk.injEq, Poll.ready.injEq, Except.ok.injEq] at heq
    obtain ⟨rfl, rfl, rfl⟩ := heq
    refine ⟨batch.map Prod.fst, .plain batch rfl hplain hn hdata, ?_⟩
    have hlen : (recvMeta.take n).length = n := by rw [hmetas, List.length_map, hn]
    split_ifs with hhop
    · rw [List.take_left' ((List.length_map _).trans hlen), hmetas, List.map_map]
      simp only [Function.comp_def, reportedAddr, hhop, if_true]
    · rw [hmetas]
      simp only [reportedAddr, hhop, Bool.false_eq_true, if_false]
  · rename_i hother
    exact ⟨_, rfl, fun n bufs recvMeta heq => absurd heq (hother n bufs recvMeta)⟩

/-- With obfuscation a receive reports the accepted entries of a batch. -/
theorem Configured.recv_unmasked {key : Salamander}
    (hw : Configured canonical (some key) hop w) (blake2b256 : Bytes → Digest) (c : RecvCall) :
    ∃ answer, w.pollRecv blake2b256 c = some answer ∧
      Reports blake2b256 (some key) (reportedAddr canonical hop) c answer := by
  rw [ObfsHopSocket.pollRecv, hw.isSome_hopIndex, hw.obfs_eq, hw.canonical_eq]
  obtain ⟨answer, hanswer, hreport⟩ := pollLoop_spec blake2b256 key
    (if hop.isSome then some canonical else none) (le_length_resize c.bufs.length c.scratch)
    c.length_le c.polls_le
  refine ⟨answer, hanswer, fun n bufs recvMeta heq => ?_⟩
  obtain ⟨acc, batch, hdelivered, hmem, hsub⟩ := hreport n bufs recvMeta heq
  refine ⟨acc.map Entry.recvMeta, .unmasked key batch acc rfl hmem hsub hdelivered.out_eq ?_, ?_⟩
  · have hpayload := congrArg (List.map Prod.fst) hdelivered.contents
    rw [List.map_map, List.map_map] at hpayload
    exact hpayload
  · rw [hdelivered.take_recvMeta, List.map_map, List.map_map]
    refine List.map_congr_left fun e _ => ?_
    simp only [Function.comp_apply, Entry.payloadMeta, Entry.recvMeta, reportedAddr]
    split_ifs with hhop
    · rfl
    · rfl

/-! ### Runs -/

/-- Every event is safe in the socket of an endpoint. -/
theorem Wraps.eventSafe {s : Option ObfsHopSocket} (hs : Wraps canonical obfs hop s)
    (blake2b256 : Bytes → Digest) (e : SocketEvent) :
    EventSafe blake2b256 obfs (AllowedAddr hop) (reportedAddr canonical hop) e
      (socketStep blake2b256 s e).1 := by
  cases s with
  | none =>
    obtain ⟨rfl, rfl⟩ := hs
    cases e with
    | hop r => rfl
    | send salt inner t =>
      refine ⟨inner, [t], rfl, fun d hd => ?_⟩
      rw [List.mem_singleton.1 hd]
      exact ⟨rfl, rfl, rfl⟩
    | recv c =>
      refine ⟨_, rfl, fun n bufs recvMeta heq => ?_⟩
      obtain ⟨batch, hplain, hn, hmetas, hdata⟩ := innerPollRecv_spec c heq
      exact ⟨batch.map Prod.fst, .plain batch rfl hplain hn hdata, by rw [hmetas]; rfl⟩
  | some w =>
    cases e with
    | hop r => rfl
    | send salt inner t => exact ⟨_, _, rfl, Configured.send hs blake2b256 salt inner t⟩
    | recv c =>
      have hrecv : ∃ answer, w.pollRecv blake2b256 c = some answer ∧
          Reports blake2b256 obfs (reportedAddr canonical hop) c answer := by
        cases obfs with
        | none => exact Configured.recv_plain hs blake2b256 c
        | some key => exact Configured.recv_unmasked hs blake2b256 c
      obtain ⟨answer, hanswer, hreport⟩ := hrecv
      exact ⟨answer, by simp only [socketStep, hanswer, Option.map_some], hreport⟩

/-- The index of a socket is in range. -/
theorem Wraps.hopIndex_lt {s : Option ObfsHopSocket} (hs : Wraps canonical obfs hop s) {i : ℕ}
    (hw : s = some w) (hi : w.hopIndex = some i) : i < w.hopAddrs.length := by
  subst hw
  exact Configured.hopIndex_lt hs i hi

/-- Every run is safe, from the socket as it is built. -/
theorem runSafe_new (blake2b256 : Bytes → Digest) (canonical : SocketAddr)
    (obfs : Option Salamander) (hhop : ∀ cfg, hop = some cfg → 1 < cfg.addrs.length) (r : ℕ)
    (es : List SocketEvent) :
    RunSafe blake2b256 obfs (AllowedAddr hop) (reportedAddr canonical hop)
      (ObfsHopSocket.new canonical obfs hop r) es := by
  intro t e he
  have hwraps : Wraps canonical obfs hop (Mealy.final (socketStep blake2b256)
      (ObfsHopSocket.new canonical obfs hop r) (es.take t)) :=
    Mealy.final_induction _ (wraps_new canonical obfs hhop r)
      fun _ e _ hs => hs.step blake2b256 e
  refine ⟨fun w i hw hi => hwraps.hopIndex_lt hw hi, ?_⟩
  rw [Mealy.getElem?_outputs, he, Option.map_some]
  exact ⟨_, rfl, hwraps.eventSafe blake2b256 e⟩

/-- A run stays safe if more addresses are allowed. -/
theorem RunSafe.mono {blake2b256 : Bytes → Digest}
    {allowed allowed' : SocketAddr → SocketAddr → Prop} {report : SocketAddr → SocketAddr}
    {s : Option ObfsHopSocket} {es : List SocketEvent}
    (h : RunSafe blake2b256 obfs allowed report s es)
    (hallowed : ∀ dest addr, allowed dest addr → allowed' dest addr) :
    RunSafe blake2b256 obfs allowed' report s es := by
  intro t e he
  obtain ⟨hindex, output, houtput, hsafe⟩ := h t e he
  refine ⟨hindex, output, houtput, ?_⟩
  cases e with
  | hop r => exact hsafe
  | send salt inner transmit =>
    obtain ⟨result, handed, heq, hhanded⟩ := hsafe
    refine ⟨result, handed, heq, fun d hd => ?_⟩
    obtain ⟨haddr, hmeta⟩ := hhanded d hd
    exact ⟨hallowed _ _ haddr, hmeta⟩
  | recv c => exact hsafe

end Rsteria.Transport
