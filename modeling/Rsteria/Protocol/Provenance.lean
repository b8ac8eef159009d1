import Rsteria.Protocol.Defragger

/-!
# Where a reassembled message comes from

The input of a `Defragger` is whatever the server sends. This file follows every stored fragment
back to the message that was fed: at any time in a run each occupied slot holds a message that was
fed since the last reset, and after the packet was completed nothing more is returned before the
next reset (`provenance`). So a returned message is the concatenation of messages of one packet, one
for each fragment number, fed since the last reset, and no message contributes to two of them.

## Main definitions

* `Protocol.Defragger.Returned`, `Protocol.Defragger.ResetsAt`, `Protocol.Defragger.LastReset` : the
  events of a run.
* `Protocol.Defragger.Assembles` : a returned message with the positions of its fragments.

## Main results

* `Protocol.Defragger.provenance` : the invariant of every run.
* `Protocol.Defragger.exists_contributors` : every returned message comes from fed fragments, and
  no fragment is used twice.
-/

namespace Rsteria.Protocol.Defragger

open Slots

variable {ms : List UdpMessage} {t r : ℕ} {m out : UdpMessage}

/-- Feeding the message at position `t`, one of several fragments, returns `out`. -/
def Returned (ms : List UdpMessage) (t : ℕ) (m out : UdpMessage) : Prop :=
  ms[t]? = some m ∧ 2 ≤ m.fragCount ∧ ((run (ms.take t)).feed m).1 = some out

/-- Feeding the message at position `t` resets the state. -/
def ResetsAt (ms : List UdpMessage) (t : ℕ) : Prop :=
  ∃ m, ms[t]? = some m ∧ (run (ms.take t)).Resets m

/-- The last reset up to and including position `t` is at `r`. -/
structure LastReset (ms : List UdpMessage) (t r : ℕ) : Prop where
  le : r ≤ t
  resetsAt : ResetsAt ms r
  not_resetsAt : ∀ s, r < s → s ≤ t → ¬ ResetsAt ms s

/-- `out` is reassembled from the messages at the positions `src 0, …, src (k - 1)`, fed since the
reset at `r`: they carry the packet id and the fragment count of `m`, one for each fragment number,
and the message `m` at position `t` is one of them. -/
structure Assembles (ms : List UdpMessage) (t r : ℕ) (m out : UdpMessage) (src : ℕ → ℕ) : Prop where
  range : ∀ i < m.fragCount.toNat, r ≤ src i ∧ src i ≤ t
  current : src m.fragId.toNat = t
  joined : ∃ f : ℕ → UdpMessage,
    (∀ i < m.fragCount.toNat, ms[src i]? = some (f i) ∧ (f i).packetId = m.packetId ∧
      (f i).fragCount = m.fragCount ∧ (f i).fragId.toNat = i) ∧
    out = Defragger.joined m.fragCount.toNat f

/-! ### The invariant of a run -/

/-- The state before position `t`, after a reset at `r`: every stored fragment was fed since, and
the packet is incomplete and nothing was returned since, or it was completed. -/
structure Since (ms : List UdpMessage) (t r : ℕ) (d : Defragger) : Prop where
  lt : r < t
  resetsAt : ResetsAt ms r
  not_resetsAt : ∀ s, r < s → s < t → ¬ ResetsAt ms s
  source : ∀ (i : ℕ) (f : UdpMessage), d.frags[i]? = some (some f) →
    ∃ s, r ≤ s ∧ s < t ∧ ms[s]? = some f
  phase : d.Collecting ∧ (∀ s m out, r ≤ s → s < t → ¬ Returned ms s m out) ∨ d.Spent

theorem run_take_succ (hm : ms[t]? = some m) :
    run (ms.take (t + 1)) = ((run (ms.take t)).feed m).2 :=
  Mealy.final_take_succ feed hm

theorem not_returned_of_none (hm : ms[t]? = some m) (hnone : ((run (ms.take t)).feed m).1 = none)
    (m' out : UdpMessage) : ¬ Returned ms t m' out := by
  rintro ⟨hm', -, hout⟩
  obtain rfl : m = m' := Option.some.inj (hm.symm.trans hm')
  simp [hnone] at hout

theorem not_returned_of_whole (hm : ms[t]? = some m) (h : m.fragCount ≤ 1)
    (m' out : UdpMessage) : ¬ Returned ms t m' out := by
  rintro ⟨hm', h2, -⟩
  obtain rfl : m = m' := Option.some.inj (hm.symm.trans hm')
  exact absurd (UInt8.le_trans h2 h) (by decide)

theorem not_resetsAt_of_not_resets (hm : ms[t]? = some m) (h : ¬ (run (ms.take t)).Resets m) :
    ¬ ResetsAt ms t := by
  rintro ⟨m', hm', hreset⟩
  obtain rfl : m = m' := Option.some.inj (hm.symm.trans hm')
  exact h hreset

theorem tagged_run (ms : List UdpMessage) : (run ms).Tagged :=
  Mealy.final_induction feed tagged_default fun d m _ hd => hd.step (d.feed_step m)

/-- A reset stores the one message it was caused by. -/
theorem since_reset (hm : ms[t]? = some m) (h : (run (ms.take t)).Resets m) :
    Since ms (t + 1) t (Defragger.reset m) where
  lt := Nat.lt_succ_self t
  resetsAt := ⟨m, hm, h⟩
  not_resetsAt s hs hs' := by omega
  source i f hf := by
    refine ⟨t, le_rfl, Nat.lt_succ_self t, ?_⟩
    simp only [Defragger.reset] at hf
    rw [List.getElem?_set] at hf
    split_ifs at hf with hi hlt
    · rw [hm, ← Option.some.inj hf]
    · exact absurd hf (getElem?_replicate_ne _ i f)
  phase := by
    refine .inl ⟨collecting_reset h.1, fun s m' out hs hs' => ?_⟩
    obtain rfl : s = t := by omega
    exact not_returned_of_none hm (by rw [feed_of_resets h]) m' out

namespace Since

variable {d : Defragger}

/-- The fields of the invariant that do not depend on what a step without a reset stores. -/
private theorem extend {d' : Defragger} (h : Since ms t r d) (hreset : ¬ ResetsAt ms t)
    (hsource : ∀ (i : ℕ) (f : UdpMessage), d'.frags[i]? = some (some f) →
      ∃ s, r ≤ s ∧ s < t + 1 ∧ ms[s]? = some f)
    (hphase : d'.Collecting ∧ (∀ s m out, r ≤ s → s < t + 1 → ¬ Returned ms s m out) ∨ d'.Spent) :
    Since ms (t + 1) r d' where
  lt := h.lt.trans (Nat.lt_succ_self t)
  resetsAt := h.resetsAt
  not_resetsAt s hs hs' := by
    rcases Nat.lt_succ_iff_lt_or_eq.1 hs' with hlt | rfl
    · exact h.not_resetsAt s hs hlt
    · exact hreset
  source := hsource
  phase := hphase

theorem source_succ (h : Since ms t r d) {i : ℕ} {f : UdpMessage}
    (hf : d.frags[i]? = some (some f)) : ∃ s, r ≤ s ∧ s < t + 1 ∧ ms[s]? = some f := by
  obtain ⟨s, hrs, hst, hs⟩ := h.source i f hf
  exact ⟨s, hrs, by omega, hs⟩

/-- After a fragment was stored at position `t`, every stored fragment still has a source. -/
theorem source_store (h : Since ms t r d) (hm : ms[t]? = some m) {i : ℕ} {f : UdpMessage}
    (hf : (d.store m).frags[i]? = some (some f)) : ∃ s, r ≤ s ∧ s < t + 1 ∧ ms[s]? = some f := by
  simp only [Defragger.store] at hf
  rw [List.getElem?_set] at hf
  split_ifs at hf with hi hlt
  · exact ⟨t, h.lt.le, Nat.lt_succ_self t, by rw [hm, ← Option.some.inj hf]⟩
  · exact h.source_succ hf

/-- A returning position has nothing returned before it since the reset. -/
theorem not_returned_succ (hold : ∀ s m out, r ≤ s → s < t → ¬ Returned ms s m out)
    (hnew : ∀ m out, ¬ Returned ms t m out) :
    ∀ s m out, r ≤ s → s < t + 1 → ¬ Returned ms s m out := by
  intro s m out hrs hst
  rcases Nat.lt_succ_iff_lt_or_eq.1 hst with hlt | rfl
  · exact hold s m out hrs hlt
  · exact hnew m out

/-- A feed that neither stores nor returns a fragment keeps the invariant. -/
theorem unchanged (h : Since ms t r d) (hreset : ¬ ResetsAt ms t)
    (hnew : ∀ m out, ¬ Returned ms t m out) : Since ms (t + 1) r d := by
  refine h.extend hreset (fun i f hf => h.source_succ hf) ?_
  rcases h.phase with ⟨hd, hold⟩ | hd
  · exact .inl ⟨hd, not_returned_succ hold hnew⟩
  · exact .inr hd

/-- One feed keeps the invariant, with the same reset or a new one. -/
theorem step (h : Since ms t r (run (ms.take t))) (hm : ms[t]? = some m) :
    ∃ r', Since ms (t + 1) r' (run (ms.take (t + 1))) := by
  rw [run_take_succ hm]
  have hstep := (run (ms.take t)).feed_step m
  have hreturned (hnone : ((run (ms.take t)).feed m).1 = none) :=
    not_returned_of_none hm hnone
  have hwhole := not_returned_of_whole hm
  have hresets := not_resetsAt_of_not_resets hm
  have hnew := since_reset hm
  generalize (run (ms.take t)).feed m = res at hstep hreturned ⊢
  obtain ⟨o, d'⟩ := res
  generalize run (ms.take t) = d at h hstep hresets hnew
  simp only at hstep hreturned ⊢
  cases hstep with
  | whole hc => exact ⟨r, h.unchanged (hresets fun hr => UInt8.not_le.2 hr.1.1 hc) (hwhole hc)⟩
  | badId hc hid =>
    exact ⟨r, h.unchanged (hresets fun hr => UInt8.not_le.2 hr.1.2 hid) (hreturned rfl)⟩
  | reset hr => exact ⟨t, hnew hr⟩
  | duplicate hf ht hs =>
    exact ⟨r, h.unchanged (hresets fun hr => hr.2 ht) (hreturned rfl)⟩
  | store hf hc =>
    refine ⟨r, h.extend (hresets fun hr => hr.2 hf.2.1) (fun i f => h.source_store hm) ?_⟩
    rcases h.phase with ⟨hd, hold⟩ | hd
    · exact .inl ⟨hd.store hf hc, not_returned_succ hold (hreturned rfl)⟩
    · exact .inr (hd.store hf)
  | complete hf hc =>
    exact ⟨r, h.extend (hresets fun hr => hr.2 hf.2.1)
      (fun i f hi => absurd hi (getElem?_clear_ne _ i f)) (.inr (spent_clear hf hc))⟩

end Since

/-- Before the first reset the state is the default one. -/
theorem default_step (h : run (ms.take t) = Defragger.default) (hm : ms[t]? = some m) :
    run (ms.take (t + 1)) = Defragger.default ∨
      ∃ r, Since ms (t + 1) r (run (ms.take (t + 1))) := by
  have hnew := since_reset hm
  rw [run_take_succ hm]
  rw [h] at hnew ⊢
  by_cases hreset : Defragger.default.Resets m
  · exact .inr ⟨t, by rw [feed_of_resets hreset]; exact hnew hreset⟩
  · left
    by_cases h1 : m.fragCount ≤ 1
    · rw [feed_of_whole h1]
    · rw [UInt8.not_le] at h1
      by_cases hid : m.fragCount ≤ m.fragId
      · rw [feed_of_badId hid h1]
      · have hf : m.IsFragment := ⟨h1, UInt8.not_le.1 hid⟩
        refine absurd ⟨hf, fun ht => ?_⟩ hreset
        have h2 := hf.bounds.1
        rw [ht.2] at h2
        exact absurd h2 (by decide)

/-- **The invariant of every run.** Either nothing was ever stored, or there was a last reset, and
every stored fragment was fed since. -/
theorem provenance (ms : List UdpMessage) (t : ℕ) (ht : t ≤ ms.length) :
    run (ms.take t) = Defragger.default ∨ ∃ r, Since ms t r (run (ms.take t)) := by
  induction t with
  | zero => exact .inl rfl
  | succ t ih =>
    have hm := List.getElem?_eq_getElem (Nat.lt_of_succ_le ht)
    rcases ih (Nat.le_of_succ_le ht) with hdefault | ⟨r, hr⟩
    · exact default_step hdefault hm
    · exact .inr (hr.step hm)

/-! ### Returned messages -/

namespace Returned

variable {t' r' : ℕ} {m' out' : UdpMessage}

/-- A message is returned by filling the last slot of an incomplete packet. -/
theorem fillsLast (h : Returned ms t m out) (hd : (run (ms.take t)).Collecting) :
    (run (ms.take t)).FillsLast m ∧ some out = assembled ((run (ms.take t)).store m).frags := by
  obtain ⟨hm, h2, hout⟩ := h
  rcases hd.step ((run (ms.take t)).feed_step m) with ⟨-, hnone⟩ | ⟨hf, hlast, heq, -⟩
  · rw [hnone (UInt8.lt_of_lt_of_le (by decide) h2)] at hout
    exact absurd hout (by simp)
  · exact ⟨⟨hf, hlast⟩, hout.symm.trans heq⟩

/-- A message is returned only while an incomplete packet is tracked, and it is the first one since
the last reset. -/
theorem exists_since (h : Returned ms t m out) :
    ∃ r, Since ms t r (run (ms.take t)) ∧ (run (ms.take t)).Collecting ∧
      ∀ s m out, r ≤ s → s < t → ¬ Returned ms s m out := by
  have hlt := (List.getElem?_eq_some_iff.1 h.1).1
  rcases provenance ms t hlt.le with hdefault | ⟨r, hr⟩
  · have hfills := (h.fillsLast (hdefault ▸ collecting_default)).1.1
    have hlen := hfills.length_bounds.1
    rw [hdefault] at hlen
    exact absurd hlen (by decide)
  · rcases hr.phase with ⟨hd, hold⟩ | hd
    · exact ⟨r, hr, hd, hold⟩
    · have hnone := (hd.step ((run (ms.take t)).feed_step m)).1
        (UInt8.lt_of_lt_of_le (by decide) h.2.1)
      rw [h.2.2] at hnone
      exact absurd hnone (by simp)

/-- Of two returned messages, the second is assembled after a reset that follows the first. -/
theorem lt_of_lastReset (h : Returned ms t m out) (h' : Returned ms t' m' out') (hlt : t < t')
    (hr' : LastReset ms t' r') : t < r' := by
  obtain ⟨r, hr, -, hfirst⟩ := h'.exists_since
  have htr : t < r := by
    by_contra hge
    exact hfirst t m out (Nat.not_lt.1 hge) hlt h
  have hle : r ≤ r' := by
    by_contra hgt
    exact hr'.not_resetsAt r (Nat.not_le.1 hgt) hr.lt.le hr.resetsAt
  exact htr.trans_le hle

/-- Every slot of the completed packet holds a message fed since the last reset; the message that
completes it is in its own slot. -/
theorem exists_source (h : Returned ms t m out) (hr : Since ms t r (run (ms.take t)))
    (hfills : (run (ms.take t)).FillsLast m) {i : ℕ} (hi : i < m.fragCount.toNat) :
    ∃ s f, r ≤ s ∧ s ≤ t ∧ ms[s]? = some f ∧
      ((run (ms.take t)).store m).frags[i]? = some (some f) ∧ (i = m.fragId.toNat → s = t) := by
  have hfull : occupied ((run (ms.take t)).store m).frags =
      ((run (ms.take t)).store m).frags.length := by
    rw [hfills.1.occupied_store, hfills.2, length_frags_store]
  have hlen : i < ((run (ms.take t)).store m).frags.length := by
    rw [length_frags_store, ← hfills.1.2.1.2]
    exact hi
  obtain ⟨f, hf⟩ := occupied_eq_length_iff.1 hfull i hlen
  by_cases heq : i = m.fragId.toNat
  · subst heq
    refine ⟨t, m, hr.lt.le, le_rfl, h.1, ?_, fun _ => rfl⟩
    rw [Defragger.store, List.getElem?_set_self (by simpa using hlen)]
  · obtain ⟨s, hrs, hst, hs⟩ := hr.source_store h.1 hf
    exact ⟨s, f, hrs, Nat.le_of_lt_succ hst, hs, hf, fun he => absurd he heq⟩

/-- A returned message is reassembled from messages fed since the last reset. -/
theorem exists_assembles (h : Returned ms t m out) :
    ∃ r src, LastReset ms t r ∧ Assembles ms t r m out src := by
  obtain ⟨r, hr, hd, -⟩ := h.exists_since
  obtain ⟨hfills, hout⟩ := h.fillsLast hd
  have htagged := (tagged_run (ms.take t)).store hfills.1
  have hlen : ((run (ms.take t)).store m).frags.length = m.fragCount.toNat := by
    rw [length_frags_store, hfills.1.2.1.2]
  have hsource := fun i => h.exists_source hr hfills (i := i)
  have : Nonempty UdpMessage := ⟨m⟩
  choose! src f hrs hst hms hslot hcurrent using hsource
  refine ⟨r, src, ⟨hr.lt.le, hr.resetsAt, ?_⟩, ?_⟩
  · intro s hs hst
    rcases Nat.lt_or_eq_of_le hst with hlt | rfl
    · exact hr.not_resetsAt s hs hlt
    · exact not_resetsAt_of_not_resets h.1 fun hreset => hreset.2 hfills.1.2.1
  · refine ⟨fun i hi => ⟨hrs i hi, hst i hi⟩, hcurrent _ hfills.1.1.bounds.2.2 rfl, f, ?_, ?_⟩
    · intro i hi
      obtain ⟨hpkt, hid, hcount⟩ := htagged i (f i) (hslot i hi)
      refine ⟨hms i hi, hpkt.trans hfills.1.2.1.1.symm, ?_, hid⟩
      exact UInt8.toNat_inj.1 (hcount.trans hlen)
    · rw [assembled_eq_joined (f := f) (by rw [hlen]; have := hfills.1.1.bounds.1; omega)
        (fun i hi => hslot i (hlen ▸ hi)), hlen] at hout
      exact Option.some.inj hout

end Returned

/-- The positions of one reassembled message are different ones. -/
theorem Assembles.injOn {src : ℕ → ℕ} (h : Assembles ms t r m out src) {i j : ℕ}
    (hi : i < m.fragCount.toNat) (hj : j < m.fragCount.toNat) (heq : src i = src j) : i = j := by
  obtain ⟨f, hf, -⟩ := h.joined
  have hfi := (hf i hi).1
  rw [heq, (hf j hj).1] at hfi
  rw [← (hf i hi).2.2.2, ← (hf j hj).2.2.2, Option.some.inj hfi]

/-- **No fragment is made up or used twice.** In every run, the positions of the contributing
fragments can be given for each position `t` at which a message is returned for a fragment: they are
at or after the last reset, one for each fragment number of the packet, the returned message is
their concatenation with the other fields of fragment 0, and no position contributes twice. -/
theorem exists_contributors (ms : List UdpMessage) :
    ∃ src : ℕ → ℕ → ℕ,
      (∀ t m out, Returned ms t m out → ∃ r, LastReset ms t r ∧ Assembles ms t r m out (src t)) ∧
      ∀ t t' m m' out out' i i', Returned ms t m out → Returned ms t' m' out' →
        i < m.fragCount.toNat → i' < m'.fragCount.toNat → src t i = src t' i' →
        t = t' ∧ i = i' := by
  have hsrc (t : ℕ) : ∃ src : ℕ → ℕ, ∀ m out, Returned ms t m out →
      ∃ r, LastReset ms t r ∧ Assembles ms t r m out src := by
    by_cases h : ∃ m out, Returned ms t m out
    · obtain ⟨m, out, hret⟩ := h
      obtain ⟨r, src, hr, hsrc⟩ := hret.exists_assembles
      refine ⟨src, fun m' out' hret' => ⟨r, hr, ?_⟩⟩
      obtain rfl : m = m' := Option.some.inj (hret.1.symm.trans hret'.1)
      obtain rfl : out = out' := Option.some.inj (hret.2.2.symm.trans hret'.2.2)
      exact hsrc
    · exact ⟨id, fun m out hret => absurd ⟨m, out, hret⟩ h⟩
  choose src hsrc using hsrc
  refine ⟨src, hsrc, ?_⟩
  intro t t' m m' out out' i i' hret hret' hi hi' heq
  obtain ⟨r, hr, hasm⟩ := hsrc t m out hret
  obtain ⟨r', hr', hasm'⟩ := hsrc t' m' out' hret'
  have hrange := hasm.range i hi
  have hrange' := hasm'.range i' hi'
  rcases Nat.lt_trichotomy t t' with hlt | rfl | hlt
  · have := hret.lt_of_lastReset hret' hlt hr'
    omega
  · obtain rfl : m = m' := Option.some.inj (hret.1.symm.trans hret'.1)
    exact ⟨rfl, hasm.injOn hi hi' heq⟩
  · have := hret'.lt_of_lastReset hret hlt hr
    omega

end Rsteria.Protocol.Defragger
