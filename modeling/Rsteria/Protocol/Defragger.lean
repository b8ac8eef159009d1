import Rsteria.Lib.Mealy
import Rsteria.Lib.Slots
import Rsteria.Protocol.UdpMessage

/-!
# The reassembler of fragmented UDP messages

`Defragger` of `src/protocol.rs` tracks one packet at a time: the packet id, one slot for each
fragment, the number of fragments stored and the sum of their payload lengths. `feed` takes the next
message and returns a whole message or nothing. A message that is not fragmented is returned at
once; a fragment of another packet resets the state; a fragment whose slot is empty is stored, and
the one that brings the count to the number of slots empties them into the reassembled message.

The count is a `u8` and `count += 1` wraps, as in a build without overflow checks; `CountOverflows`
says when a build with the checks would panic. After a packet was completed the slots are empty but
the count is not reset: the state is *spent*, and no further fragment of the same packet completes
it again (`Spent.step`). A state that is not spent is *collecting*, and there the count is exact.

## Main definitions

* `Protocol.Defragger`, `Protocol.Defragger.feed`.
* `Protocol.Defragger.FeedStep` : what a feed can do.
* `Protocol.Defragger.Tagged`, `Protocol.Defragger.Collecting`, `Protocol.Defragger.Spent`.

## Main results

* `Protocol.Defragger.feed_step` : a feed is one of the six steps.
* `Protocol.Defragger.Tagged.step`, `Protocol.Defragger.Collecting.step`,
  `Protocol.Defragger.Spent.step` : what a feed keeps.
* `Protocol.Defragger.exact_iff_never_fillsLast` : the bookkeeping is exact as long as no packet is
  completed.
-/

namespace Rsteria.Protocol

open Slots

/-- Reassembles fragmented messages, one packet id at a time. -/
structure Defragger where
  pktId : UInt16
  frags : List (Option UdpMessage)
  count : UInt8
  size : ℕ
  deriving DecidableEq, Repr

/-- A message that is one fragment of several, with a fragment number in range. -/
def UdpMessage.IsFragment (m : UdpMessage) : Prop :=
  1 < m.fragCount ∧ m.fragId < m.fragCount

instance (m : UdpMessage) : Decidable m.IsFragment := inferInstanceAs (Decidable (_ ∧ _))

theorem UdpMessage.IsFragment.bounds {m : UdpMessage} (h : m.IsFragment) :
    2 ≤ m.fragCount.toNat ∧ m.fragCount.toNat ≤ 255 ∧ m.fragId.toNat < m.fragCount.toNat :=
  ⟨UInt8.lt_iff_toNat_lt.1 h.1, Nat.le_of_lt_succ m.fragCount.toNat_lt,
    UInt8.lt_iff_toNat_lt.1 h.2⟩

namespace Defragger

/-- `Defragger::default`. -/
protected def default : Defragger := ⟨0, [], 0, 0⟩

/-- The loop that empties the slots in order: the payloads collected so far, and the first
fragment taken. -/
def assemble : List (Option UdpMessage) → Bytes → Option UdpMessage → Bytes × Option UdpMessage
  | [], data, first => (data, first)
  | none :: slots, data, first => assemble slots data first
  | some frag :: slots, data, first =>
    assemble slots (data ++ frag.data) (if first.isNone then some frag else first)

/-- The state after a fragment of a new packet. -/
def reset (m : UdpMessage) : Defragger where
  pktId := m.packetId
  frags := (List.replicate m.fragCount.toNat none).set m.fragId.toNat (some m)
  count := 1
  size := m.data.length

/-- The state after a fragment was put into its slot. -/
def store (d : Defragger) (m : UdpMessage) : Defragger :=
  { d with
    size := d.size + m.data.length
    count := d.count + 1
    frags := d.frags.set m.fragId.toNat (some m) }

/-- Feed a message, whole or fragmented. -/
def feed (d : Defragger) (m : UdpMessage) : Option UdpMessage × Defragger :=
  if m.fragCount ≤ 1 then (some m, d)
  else if m.fragId ≥ m.fragCount then (none, d)
  else if m.packetId ≠ d.pktId ∨ m.fragCount.toNat ≠ d.frags.length then (none, reset m)
  else if (d.frags.getD m.fragId.toNat none).isNone then
    let d := d.store m
    if d.count.toNat = d.frags.length then
      let (data, first) := assemble d.frags [] none
      let d := { d with frags := clear d.frags }
      match first with
      | none => (none, d)
      | some out => (some { out with data := data, fragId := 0, fragCount := 1 }, d)
    else (none, d)
  else (none, d)

/-! ### What a feed can do -/

/-- The message belongs to the packet that the state tracks. -/
def Tracks (d : Defragger) (m : UdpMessage) : Prop :=
  m.packetId = d.pktId ∧ m.fragCount.toNat = d.frags.length

/-- The message is a fragment of another packet than the one tracked. -/
def Resets (d : Defragger) (m : UdpMessage) : Prop := m.IsFragment ∧ ¬ d.Tracks m

/-- The message is a fragment of the tracked packet that is not stored yet. -/
def Fills (d : Defragger) (m : UdpMessage) : Prop :=
  m.IsFragment ∧ d.Tracks m ∧ d.frags[m.fragId.toNat]? = some none

instance (d : Defragger) (m : UdpMessage) : Decidable (d.Tracks m) :=
  inferInstanceAs (Decidable (_ ∧ _))

instance (d : Defragger) (m : UdpMessage) : Decidable (d.Resets m) :=
  inferInstanceAs (Decidable (_ ∧ _))

instance (d : Defragger) (m : UdpMessage) : Decidable (d.Fills m) :=
  inferInstanceAs (Decidable (_ ∧ _))

/-- The result of emptying the slots. -/
def assembled (slots : List (Option UdpMessage)) : Option UdpMessage :=
  (assemble slots [] none).2.map fun out =>
    { out with data := (assemble slots [] none).1, fragId := 0, fragCount := 1 }

/-- What feeding `m` in the state `d` returns, and the state it leaves. -/
inductive FeedStep (d : Defragger) (m : UdpMessage) : Option UdpMessage → Defragger → Prop where
  /-- A whole message is returned. -/
  | whole (h : m.fragCount ≤ 1) : FeedStep d m (some m) d
  /-- A fragment number out of range is ignored. -/
  | badId (h : 1 < m.fragCount) (hid : m.fragCount ≤ m.fragId) : FeedStep d m none d
  /-- A fragment of another packet starts anew. -/
  | reset (h : d.Resets m) : FeedStep d m none (reset m)
  /-- A fragment that is already stored is ignored. -/
  | duplicate (h : m.IsFragment) (ht : d.Tracks m) (hs : d.frags[m.fragId.toNat]? ≠ some none) :
    FeedStep d m none d
  /-- A fragment is stored and the packet stays incomplete. -/
  | store (h : d.Fills m) (hc : (d.store m).count.toNat ≠ d.frags.length) :
    FeedStep d m none (d.store m)
  /-- A fragment is stored and the slots are emptied. -/
  | complete (h : d.Fills m) (hc : (d.store m).count.toNat = d.frags.length) :
    FeedStep d m (assembled (d.store m).frags)
      { d.store m with frags := clear (d.store m).frags }

variable {d : Defragger} {m : UdpMessage}

@[simp] theorem length_frags_store (d : Defragger) (m : UdpMessage) :
    (d.store m).frags.length = d.frags.length :=
  List.length_set

theorem feed_of_whole (h : m.fragCount ≤ 1) : d.feed m = (some m, d) := if_pos h

theorem feed_of_badId (h : m.fragCount ≤ m.fragId) (h1 : 1 < m.fragCount) :
    d.feed m = (none, d) := by
  rw [feed, if_neg (UInt8.not_le.2 h1), if_pos h]

/-- A fragment is not caught by the first two tests of `feed`. -/
private theorem feed_of_isFragment (h : m.IsFragment) :
    d.feed m = if ¬ d.Tracks m then (none, Defragger.reset m)
      else if d.frags[m.fragId.toNat]? = some none then
        if (d.store m).count.toNat = d.frags.length then
          (assembled (d.store m).frags, { d.store m with frags := clear (d.store m).frags })
        else (none, d.store m)
      else (none, d) := by
  have hslot (ht : d.Tracks m) : (d.frags.getD m.fragId.toNat none).isNone ↔
      d.frags[m.fragId.toNat]? = some none := by
    have hlt : m.fragId.toNat < d.frags.length := ht.2 ▸ UInt8.lt_iff_toNat_lt.1 h.2
    rw [List.getD_eq_getElem?_getD, List.getElem?_eq_getElem hlt]
    simp
  rw [feed, if_neg (UInt8.not_le.2 h.1), if_neg (UInt8.not_le.2 h.2)]
  by_cases ht : d.Tracks m
  · have ht' : ¬ (m.packetId ≠ d.pktId ∨ m.fragCount.toNat ≠ d.frags.length) := by
      rintro (hp | hl)
      · exact hp ht.1
      · exact hl ht.2
    simp only [ht', if_false, ht, not_true_eq_false, hslot ht, length_frags_store]
    split_ifs with hs hc
    · unfold assembled
      cases assemble (d.store m).frags [] none with
      | mk data first => cases first <;> rfl
    · rfl
    · rfl
  · have ht' : m.packetId ≠ d.pktId ∨ m.fragCount.toNat ≠ d.frags.length := by
      by_contra hcon
      simp only [not_or, ne_eq, not_not] at hcon
      exact ht hcon
    simp only [ht', if_true, ht, not_false_eq_true]

theorem feed_of_resets (h : d.Resets m) : d.feed m = (none, Defragger.reset m) := by
  rw [feed_of_isFragment h.1, if_pos h.2]

theorem feed_of_duplicate (h : m.IsFragment) (ht : d.Tracks m)
    (hs : d.frags[m.fragId.toNat]? ≠ some none) : d.feed m = (none, d) := by
  rw [feed_of_isFragment h, if_neg (not_not.2 ht), if_neg hs]

theorem feed_of_store (h : d.Fills m) (hc : (d.store m).count.toNat ≠ d.frags.length) :
    d.feed m = (none, d.store m) := by
  rw [feed_of_isFragment h.1, if_neg (not_not.2 h.2.1), if_pos h.2.2, if_neg hc]

theorem feed_of_complete (h : d.Fills m) (hc : (d.store m).count.toNat = d.frags.length) :
    d.feed m = (assembled (d.store m).frags,
      { d.store m with frags := clear (d.store m).frags }) := by
  rw [feed_of_isFragment h.1, if_neg (not_not.2 h.2.1), if_pos h.2.2, if_pos hc]

/-- A feed is one of the six steps. -/
theorem feed_step (d : Defragger) (m : UdpMessage) : FeedStep d m (d.feed m).1 (d.feed m).2 := by
  by_cases h1 : m.fragCount ≤ 1
  · rw [feed_of_whole h1]
    exact .whole h1
  · rw [UInt8.not_le] at h1
    by_cases hid : m.fragCount ≤ m.fragId
    · rw [feed_of_badId hid h1]
      exact .badId h1 hid
    · have h : m.IsFragment := ⟨h1, UInt8.not_le.1 hid⟩
      by_cases ht : d.Tracks m
      · by_cases hs : d.frags[m.fragId.toNat]? = some none
        · by_cases hc : (d.store m).count.toNat = d.frags.length
          · rw [feed_of_complete ⟨h, ht, hs⟩ hc]
            exact .complete ⟨h, ht, hs⟩ hc
          · rw [feed_of_store ⟨h, ht, hs⟩ hc]
            exact .store ⟨h, ht, hs⟩ hc
        · rw [feed_of_duplicate h ht hs]
          exact .duplicate h ht hs
      · rw [feed_of_resets ⟨h, ht⟩]
        exact .reset ⟨h, ht⟩

/-! ### The reassembled message -/

theorem assemble_eq (slots : List (Option UdpMessage)) (data : Bytes)
    (first : Option UdpMessage) :
    assemble slots data first = (data ++ (slots.filterMap id).flatMap UdpMessage.data,
      first.or (slots.filterMap id).head?) := by
  induction slots generalizing data first with
  | nil => cases first <;> simp [assemble]
  | cons slot slots ih =>
    cases slot with
    | none => simp [assemble, ih]
    | some frag => cases first <;> simp [assemble, ih]

/-- The message reassembled from the fragments `f 0, …, f (k - 1)`. -/
def joined (k : ℕ) (f : ℕ → UdpMessage) : UdpMessage :=
  { f 0 with
    data := (List.range k).flatMap fun i => (f i).data
    fragId := 0
    fragCount := 1 }

/-- Emptying a complete row of slots joins its fragments. -/
theorem assembled_eq_joined {slots : List (Option UdpMessage)} {f : ℕ → UdpMessage}
    (hpos : 0 < slots.length) (h : ∀ i < slots.length, slots[i]? = some (some (f i))) :
    assembled slots = some (joined slots.length f) := by
  obtain ⟨k, hk⟩ := Nat.exists_eq_add_of_lt hpos
  rw [assembled, assemble_eq, filterMap_eq_range_map h, List.flatMap_map, hk, Nat.zero_add,
    joined, List.range_succ_eq_map]
  rfl

/-! ### Invariants -/

/-- Every stored fragment is in its own slot of the tracked packet. -/
def Tagged (d : Defragger) : Prop :=
  ∀ (i : ℕ) (f : UdpMessage), d.frags[i]? = some (some f) →
    f.packetId = d.pktId ∧ f.fragId.toNat = i ∧ f.fragCount.toNat = d.frags.length

/-- The tracked packet, if any, is incomplete, and the count is exact. -/
def Collecting (d : Defragger) : Prop :=
  d.count.toNat = occupied d.frags ∧ (d.frags = [] ∨ occupied d.frags < d.frags.length)

/-- The tracked packet was completed, and the count goes on from the number of slots. -/
def Spent (d : Defragger) : Prop :=
  2 ≤ d.frags.length ∧ d.frags.length ≤ 255 ∧
    d.count.toNat = (d.frags.length + occupied d.frags) % 256

/-- A fragment that fills a slot has one of 2 to 255 slots to fill. -/
theorem Fills.length_bounds (h : d.Fills m) : 2 ≤ d.frags.length ∧ d.frags.length ≤ 255 := by
  rw [← h.2.1.2]
  exact ⟨h.1.bounds.1, h.1.bounds.2.1⟩

theorem Fills.occupied_store (h : d.Fills m) :
    occupied (d.store m).frags = occupied d.frags + 1 :=
  occupied_set h.2.2 m

theorem Fills.occupied_lt (h : d.Fills m) : occupied d.frags < d.frags.length :=
  occupied_lt_length h.2.2

theorem toNat_count_store (d : Defragger) (m : UdpMessage) :
    (d.store m).count.toNat = (d.count.toNat + 1) % 256 :=
  UInt8.toNat_add d.count 1

theorem tagged_default : Defragger.default.Tagged := by
  intro i f h
  simp [Defragger.default] at h

theorem tagged_reset (m : UdpMessage) : (Defragger.reset m).Tagged := by
  intro i f hf
  simp only [Defragger.reset, List.length_set, List.length_replicate] at hf ⊢
  rw [List.getElem?_set] at hf
  split_ifs at hf with hi hlt
  · simp only [Option.some.injEq] at hf
    exact ⟨hf ▸ rfl, hf ▸ hi, hf ▸ rfl⟩
  · exact absurd hf (getElem?_replicate_ne _ i f)

theorem Tagged.store (hd : d.Tagged) (h : d.Fills m) : (d.store m).Tagged := by
  intro i f hf
  rw [length_frags_store]
  simp only [Defragger.store] at hf ⊢
  rw [List.getElem?_set] at hf
  split_ifs at hf with hi hlt
  · simp only [Option.some.injEq] at hf
    exact ⟨hf ▸ h.2.1.1, hf ▸ hi, hf ▸ h.2.1.2⟩
  · exact hd i f hf

theorem tagged_clear (d : Defragger) : { d with frags := clear d.frags }.Tagged :=
  fun i f hf => absurd hf (getElem?_clear_ne d.frags i f)

section Step

variable {out : Option UdpMessage} {d' : Defragger}

/-- Stored fragments stay in their own slots. -/
theorem Tagged.step (hd : d.Tagged) (h : FeedStep d m out d') : d'.Tagged := by
  cases h with
  | whole h => exact hd
  | badId h hid => exact hd
  | reset h => exact tagged_reset m
  | duplicate h ht hs => exact hd
  | store h hc => exact hd.store h
  | complete h hc => exact tagged_clear (d.store m)

theorem collecting_default : Defragger.default.Collecting := ⟨rfl, .inl rfl⟩

theorem collecting_reset (h : m.IsFragment) : (Defragger.reset m).Collecting := by
  obtain ⟨h2, -, hid⟩ := h.bounds
  have hocc : occupied (Defragger.reset m).frags = 1 := by
    rw [Defragger.reset, occupied_set (by rw [List.getElem?_replicate, if_pos hid]),
      occupied_replicate]
  refine ⟨hocc.symm, .inr ?_⟩
  rw [hocc]
  simp only [Defragger.reset, List.length_set, List.length_replicate]
  omega

/-- While a packet is incomplete the count does not wrap. -/
theorem Collecting.count_store (hd : d.Collecting) (h : d.Fills m) :
    (d.store m).count.toNat = occupied d.frags + 1 := by
  have hlt := h.occupied_lt
  have hle := h.length_bounds
  rw [toNat_count_store, hd.1]
  omega

theorem Collecting.store (hd : d.Collecting) (h : d.Fills m)
    (hc : (d.store m).count.toNat ≠ d.frags.length) : (d.store m).Collecting := by
  have hlt := h.occupied_lt
  rw [hd.count_store h] at hc
  refine ⟨by rw [hd.count_store h, h.occupied_store], .inr ?_⟩
  rw [h.occupied_store, length_frags_store]
  omega

theorem spent_clear (h : d.Fills m) (hc : (d.store m).count.toNat = d.frags.length) :
    { d.store m with frags := clear (d.store m).frags }.Spent := by
  have hle := h.length_bounds
  simp only [Spent, length_clear, length_frags_store, occupied_clear]
  omega

/-- Further fragments of a completed packet are stored without completing it again: the count
would have to come round to the number of slots, and there are fewer than 256 of them. -/
theorem Spent.count_store (hd : d.Spent) (h : d.Fills m) :
    (d.store m).count.toNat ≠ d.frags.length := by
  have hlt := h.occupied_lt
  have hle := h.length_bounds
  rw [toNat_count_store, hd.2.2]
  omega

theorem Spent.store (hd : d.Spent) (h : d.Fills m) : (d.store m).Spent := by
  refine ⟨by simpa using hd.1, by simpa using hd.2.1, ?_⟩
  rw [toNat_count_store, hd.2.2, length_frags_store, h.occupied_store]
  omega

/-- A completed packet returns nothing more, and stays completed until the next reset. -/
theorem Spent.step (hd : d.Spent) (h : FeedStep d m out d') :
    (1 < m.fragCount → out = none) ∧ (d.Resets m ∨ d'.Spent) := by
  cases h with
  | whole h => exact ⟨fun h1 => absurd h (UInt8.not_le.2 h1), .inr hd⟩
  | badId h hid => exact ⟨fun _ => rfl, .inr hd⟩
  | reset h => exact ⟨fun _ => rfl, .inl h⟩
  | duplicate h ht hs => exact ⟨fun _ => rfl, .inr hd⟩
  | store h hc => exact ⟨fun _ => rfl, .inr (hd.store h)⟩
  | complete h hc => exact absurd hc (hd.count_store h)

/-- An incomplete packet stays incomplete, unless a fragment completes it; the slots are then all
filled. -/
theorem Collecting.step (hd : d.Collecting) (h : FeedStep d m out d') :
    d'.Collecting ∧ (1 < m.fragCount → out = none) ∨
      d.Fills m ∧ occupied d.frags + 1 = d.frags.length ∧
        out = assembled (d.store m).frags ∧ d'.Spent := by
  cases h with
  | whole h => exact .inl ⟨hd, fun h1 => absurd h (UInt8.not_le.2 h1)⟩
  | badId h hid => exact .inl ⟨hd, fun _ => rfl⟩
  | reset h => exact .inl ⟨collecting_reset h.1, fun _ => rfl⟩
  | duplicate h ht hs => exact .inl ⟨hd, fun _ => rfl⟩
  | store h hc => exact .inl ⟨hd.store h hc, fun _ => rfl⟩
  | complete h hc =>
    exact .inr ⟨h, (hd.count_store h).symm.trans hc, rfl, spent_clear h hc⟩

end Step

/-! ### Whole runs, and when the bookkeeping is exact -/

/-- The state after a sequence of messages was fed to a default reassembler. -/
def run (ms : List UdpMessage) : Defragger := Mealy.final feed Defragger.default ms

/-- The count and the size are those of the stored fragments, each in its own slot. -/
structure Exact (d : Defragger) : Prop where
  count_eq : d.count.toNat = occupied d.frags
  size_eq : d.size = weight (fun f => f.data.length) d.frags
  tagged : d.Tagged

/-- The increment of the count overflows: a build with overflow checks panics. -/
def CountOverflows (d : Defragger) (m : UdpMessage) : Prop := d.Fills m ∧ d.count = 255

/-- The message fills the last empty slot. -/
def FillsLast (d : Defragger) (m : UdpMessage) : Prop :=
  d.Fills m ∧ occupied d.frags + 1 = d.frags.length

instance (d : Defragger) (m : UdpMessage) : Decidable (d.CountOverflows m) :=
  inferInstanceAs (Decidable (_ ∧ _))

instance (d : Defragger) (m : UdpMessage) : Decidable (d.FillsLast m) :=
  inferInstanceAs (Decidable (_ ∧ _))

theorem exact_default : Defragger.default.Exact := ⟨rfl, rfl, tagged_default⟩

theorem exact_reset (h : m.IsFragment) : (Defragger.reset m).Exact := by
  refine ⟨(collecting_reset h).1, ?_, tagged_reset m⟩
  rw [Defragger.reset, weight_set _ (by rw [List.getElem?_replicate, if_pos h.bounds.2.2]),
    weight_replicate, Nat.zero_add]

/-- As long as the slots of a packet are counted exactly, the count does not overflow. -/
theorem Exact.not_countOverflows (hd : d.Exact) (m : UdpMessage) : ¬ d.CountOverflows m := by
  rintro ⟨h, hc⟩
  have hlt := h.occupied_lt
  have hle := h.length_bounds
  rw [← hd.count_eq, hc] at hlt
  change 255 < d.frags.length at hlt
  omega

theorem Exact.store (hd : d.Exact) (h : d.Fills m) : (d.store m).Exact := by
  have hlt := h.occupied_lt
  have hle := h.length_bounds
  refine ⟨?_, ?_, hd.tagged.store h⟩
  · rw [toNat_count_store, hd.count_eq, h.occupied_store]
    omega
  · rw [Defragger.store, weight_set _ h.2.2, hd.size_eq]

/-- The bookkeeping stays exact in every step that does not fill the last slot. -/
theorem Exact.feed (hd : d.Exact) (hm : ¬ d.FillsLast m) : (d.feed m).2.Exact := by
  have hstep := d.feed_step m
  generalize (d.feed m).1 = out, (d.feed m).2 = d' at hstep
  cases hstep with
  | whole h => exact hd
  | badId h hid => exact hd
  | reset h => exact exact_reset h.1
  | duplicate h ht hs => exact hd
  | store h hc => exact hd.store h
  | complete h hc =>
    refine absurd ⟨h, ?_⟩ hm
    rw [← hc, (hd.store h).count_eq, h.occupied_store]

/-- Filling the last slot leaves a count without fragments. -/
theorem Exact.not_exact_feed (hd : d.Exact) (hm : d.FillsLast m) : ¬ (d.feed m).2.Exact := by
  obtain ⟨h, hlast⟩ := hm
  have hle := h.length_bounds
  have hc : (d.store m).count.toNat = d.frags.length := by
    rw [(hd.store h).count_eq, h.occupied_store, hlast]
  rw [feed_of_complete h hc]
  intro hexact
  have hzero := hexact.count_eq
  rw [occupied_clear] at hzero
  change (d.store m).count.toNat = 0 at hzero
  omega

/-- **When the bookkeeping is exact.** In a run the count and the size are those of the stored
fragments at all times, and the count never overflows, if and only if no message of the run fills
the last empty slot of the packet it belongs to. -/
theorem exact_iff_never_fillsLast (ms : List UdpMessage) :
    (∀ t ≤ ms.length, (run (ms.take t)).Exact ∧
      ∀ m, ms[t]? = some m → ¬ (run (ms.take t)).CountOverflows m) ↔
    ∀ t m, ms[t]? = some m → ¬ (run (ms.take t)).FillsLast m := by
  have hstep (d : Defragger) (m : UdpMessage) (_ : True) (hd : d.Exact) :
      (d.feed m).2.Exact ↔ ¬ d.FillsLast m :=
    ⟨fun h hlast => hd.not_exact_feed hlast h, hd.feed⟩
  have hiff := Mealy.forall_take_iff feed trivial exact_default (fun _ _ _ => trivial) hstep ms
  constructor
  · exact fun h => hiff.1 fun t ht => (h t ht).1
  · intro h t ht
    have hexact := hiff.2 h t ht
    exact ⟨hexact, fun m _ => hexact.not_countOverflows m⟩

/-- A packet of two fragments leaves the count at 2 with both slots empty. -/
theorem not_exact_after_completion :
    ¬ (∀ ms, (run ms).Exact ∧ ∀ m, ¬ (run ms).CountOverflows m) ∧
      (run [⟨1, 7, 0, 2, "a:1", [1]⟩, ⟨1, 7, 1, 2, "a:1", [2]⟩]).count = 2 ∧
      occupied (run [⟨1, 7, 0, 2, "a:1", [1]⟩, ⟨1, 7, 1, 2, "a:1", [2]⟩]).frags = 0 := by
  refine ⟨fun h => ?_, by decide, by decide⟩
  have hcount := (h [⟨1, 7, 0, 2, "a:1", [1]⟩, ⟨1, 7, 1, 2, "a:1", [2]⟩]).1.count_eq
  revert hcount
  decide

end Defragger

end Rsteria.Protocol
