import Rsteria.Protocol.Defragger
import Rsteria.Protocol.Fragment

/-!
# Reassembly in any order of delivery

The fragments of one packet are a *family*: `k` messages with the same packet id, numbered from `0`
to `k - 1`. A reassembler that receives members of a family, in any order and any number of times,
between messages that it passes on or ignores, goes through three phases (`Progress`): it does not
track the packet, it holds exactly the fragments that arrived, or it has completed the packet. One
feed moves along them (`Progress.feed`), and the message is returned by the feed at which the last
fragment arrives for the first time.

The fragments of a message under a size limit are a family (`family_fragment`) whose members join to
the message (`joined_fragment`), so that receiving their datagrams undoes fragmenting.

## Main definitions

* `Protocol.Defragger.receive` : parse a datagram and feed it.
* `Protocol.Defragger.Family`, `Protocol.Defragger.Progress`.
* `Protocol.Defragger.Delivery`, `Protocol.Defragger.deliver` : the fragments of a message between
  other messages.

## Main results

* `Protocol.Defragger.Progress.feed` : what the next fragment does.
* `Protocol.Defragger.reassembles_any_order` : reassembling undoes fragmenting.
-/

namespace Rsteria.Protocol.Defragger

open Slots

/-- Parse a datagram and feed it; a datagram that is not a message is skipped. -/
def receive (d : Defragger) (datagram : Bytes) : Option UdpMessage × Defragger :=
  match UdpMessage.parse datagram with
  | some m => d.feed m
  | none => (none, d)

theorem receive_wire {m : UdpMessage} (h : m.WellFormed) (d : Defragger) :
    d.receive m.wire = d.feed m := by
  rw [receive, UdpMessage.parse_wire h]

/-! ### The fragments of one packet -/

/-- The fragments `F 0, …, F (k - 1)` of one packet. -/
structure Family (k : ℕ) (F : ℕ → UdpMessage) : Prop where
  two_le : 2 ≤ k
  le : k ≤ 255
  packetId : ∀ i < k, (F i).packetId = (F 0).packetId
  fragCount : ∀ i < k, (F i).fragCount.toNat = k
  fragId : ∀ i < k, (F i).fragId.toNat = i

variable {k : ℕ} {F : ℕ → UdpMessage} {A : List ℕ} {d d₀ : Defragger} {i : ℕ}

/-- The state tracks the packet of the family. -/
def TracksFamily (k : ℕ) (F : ℕ → UdpMessage) (d : Defragger) : Prop :=
  d.pktId = (F 0).packetId ∧ d.frags.length = k

theorem Family.isFragment (hF : Family k F) (hi : i < k) : (F i).IsFragment := by
  have h2 := hF.two_le
  constructor
  · rw [UInt8.lt_iff_toNat_lt, hF.fragCount i hi]
    exact h2
  · rw [UInt8.lt_iff_toNat_lt, hF.fragId i hi, hF.fragCount i hi]
    exact hi

theorem Family.tracks_iff (hF : Family k F) (hi : i < k) :
    d.Tracks (F i) ↔ TracksFamily k F d := by
  rw [Tracks, TracksFamily, hF.packetId i hi, hF.fragCount i hi, eq_comm, eq_comm (a := k)]

/-- The fragments with the numbers in `A` have all arrived. -/
def Full (k : ℕ) (A : List ℕ) : Prop := ∀ i < k, i ∈ A

instance (k : ℕ) (A : List ℕ) : Decidable (Full k A) := inferInstanceAs (Decidable (∀ i < k, i ∈ A))

/-- The slots that hold the fragments with the numbers in `A`. -/
def slots (k : ℕ) (F : ℕ → UdpMessage) (A : List ℕ) : List (Option UdpMessage) :=
  (List.range k).map fun i => if i ∈ A then some (F i) else none

@[simp] theorem length_slots (k : ℕ) (F : ℕ → UdpMessage) (A : List ℕ) :
    (slots k F A).length = k := by
  rw [slots, List.length_map, List.length_range]

theorem getElem?_slots (F : ℕ → UdpMessage) (A : List ℕ) (hi : i < k) :
    (slots k F A)[i]? = some (if i ∈ A then some (F i) else none) := by
  rw [slots, List.getElem?_map, List.getElem?_range hi, Option.map_some]

theorem slots_set (k : ℕ) (F : ℕ → UdpMessage) (A : List ℕ) (i : ℕ) :
    (slots k F A).set i (some (F i)) = slots k F (A ++ [i]) := by
  apply List.ext_getElem?
  intro j
  by_cases hj : j < k
  · rw [List.getElem?_set, getElem?_slots F A hj, getElem?_slots F _ hj, length_slots]
    by_cases hij : i = j
    · simp [hij, hj]
    · simp [hij, Ne.symm hij]
  · rw [List.getElem?_eq_none (by simpa using hj), List.getElem?_eq_none (by simpa using hj)]

theorem slots_congr (F : ℕ → UdpMessage) {A B : List ℕ} (h : ∀ i, i ∈ A ↔ i ∈ B) :
    slots k F A = slots k F B := by
  simp only [slots, h]

/-- The slots are complete when every fragment has arrived. -/
theorem occupied_slots_eq_iff : occupied (slots k F A) = k ↔ Full k A := by
  have hiff : occupied (slots k F A) = (slots k F A).length ↔ _ := occupied_eq_length_iff
  rw [length_slots] at hiff
  rw [hiff]
  refine forall₂_congr fun i hi => ?_
  rw [getElem?_slots F A hi]
  by_cases hA : i ∈ A <;> simp [hA]

theorem assembled_slots (hF : Family k F) (hfull : Full k A) :
    assembled (slots k F A) = some (joined k F) := by
  have h2 := hF.two_le
  have hslot : ∀ i < (slots k F A).length, (slots k F A)[i]? = some (some (F i)) := by
    intro i hi
    rw [length_slots] at hi
    rw [getElem?_slots F A hi, if_pos (hfull i hi)]
  rw [assembled_eq_joined (by rw [length_slots]; omega) hslot, length_slots]

/-! ### Progress of one packet -/

/-- How far the reassembly has come when the fragments with the numbers in `A` have arrived in a
state `d₀`. -/
inductive Progress (k : ℕ) (F : ℕ → UdpMessage) (d₀ : Defragger) : List ℕ → Defragger → Prop where
  /-- No fragment has arrived. -/
  | untouched : Progress k F d₀ [] d₀
  /-- Some fragments are missing; those that arrived are stored. -/
  | collecting {A : List ℕ} {d : Defragger} (hmissing : ¬ Full k A)
    (hpkt : d.pktId = (F 0).packetId) (hslots : d.frags = slots k F A) (hd : d.Collecting) :
    Progress k F d₀ A d
  /-- Every fragment has arrived. -/
  | complete {A : List ℕ} {d : Defragger} (hfull : Full k A) (ht : TracksFamily k F d)
    (hd : d.Spent) : Progress k F d₀ A d

theorem Full.concat (h : Full k A) (i : ℕ) : Full k (A ++ [i]) :=
  fun j hj => List.mem_append_left _ (h j hj)

theorem reset_eq_slots (hF : Family k F) (hi : i < k) :
    (Defragger.reset (F i)).frags = slots k F [i] := by
  have hnil : slots k F [] = List.replicate k none := by
    simp [slots, List.map_const']
  rw [Defragger.reset, hF.fragCount i hi, hF.fragId i hi, ← hnil, slots_set, List.nil_append]

/-- The first fragment of the packet resets the state. -/
private theorem feed_untouched (hF : Family k F) (hd₀ : ¬ TracksFamily k F d₀) (hi : i < k) :
    (d₀.feed (F i)).1 = none ∧ ¬ Full k [i] ∧ Progress k F d₀ [i] (d₀.feed (F i)).2 := by
  have hmissing : ¬ Full k [i] := by
    have h2 := hF.two_le
    intro hfull
    have h0 := hfull 0 (by omega)
    have h1 := hfull 1 (by omega)
    simp only [List.mem_singleton] at h0 h1
    omega
  rw [feed_of_resets ⟨hF.isFragment hi, fun ht => hd₀ ((hF.tracks_iff hi).1 ht)⟩]
  exact ⟨rfl, hmissing, .collecting hmissing (hF.packetId i hi) (reset_eq_slots hF hi)
    (collecting_reset (hF.isFragment hi))⟩

/-- A fragment of an incomplete packet is ignored if it is stored already, and stored otherwise; the
last one completes the packet. -/
private theorem feed_collecting (d₀ : Defragger) (hF : Family k F) (hmissing : ¬ Full k A)
    (hpkt : d.pktId = (F 0).packetId) (hslots : d.frags = slots k F A) (hd : d.Collecting)
    (hi : i < k) :
    (d.feed (F i)).1 = (if Full k (A ++ [i]) then some (joined k F) else none) ∧
      Progress k F d₀ (A ++ [i]) (d.feed (F i)).2 := by
  have hlen : d.frags.length = k := by rw [hslots, length_slots]
  have ht : d.Tracks (F i) := (hF.tracks_iff hi).2 ⟨hpkt, hlen⟩
  have hslot : d.frags[(F i).fragId.toNat]? = some (if i ∈ A then some (F i) else none) := by
    rw [hF.fragId i hi, hslots, getElem?_slots F A hi]
  by_cases hA : i ∈ A
  · have hsame : ∀ j, j ∈ A ++ [i] ↔ j ∈ A := by
      intro j
      simp only [List.mem_append, List.mem_singleton, or_iff_left_iff_imp]
      rintro rfl
      exact hA
    have hmissing' : ¬ Full k (A ++ [i]) := fun h => hmissing fun j hj => (hsame j).1 (h j hj)
    rw [feed_of_duplicate (hF.isFragment hi) ht (by simp [hslot, hA]), if_neg hmissing']
    exact ⟨rfl, .collecting hmissing' hpkt (hslots.trans (slots_congr F hsame).symm) hd⟩
  · have hfills : d.Fills (F i) := ⟨hF.isFragment hi, ht, by rw [hslot, if_neg hA]⟩
    have hstore : (d.store (F i)).frags = slots k F (A ++ [i]) := by
      rw [Defragger.store, hF.fragId i hi, hslots, slots_set]
    have hcount : (d.store (F i)).count.toNat = d.frags.length ↔ Full k (A ++ [i]) := by
      rw [hd.count_store hfills, ← hfills.occupied_store, hstore, hlen, occupied_slots_eq_iff]
    by_cases hfull : Full k (A ++ [i])
    · have hc := hcount.2 hfull
      rw [feed_of_complete hfills hc, if_pos hfull, hstore]
      refine ⟨assembled_slots hF hfull, .complete hfull ⟨hpkt, ?_⟩ (hstore ▸ spent_clear hfills hc)⟩
      rw [length_clear, length_slots]
    · have hc := mt hcount.1 hfull
      rw [feed_of_store hfills hc, if_neg hfull]
      exact ⟨rfl, .collecting hfull hpkt hstore (hd.store hfills hc)⟩

/-- A fragment of a completed packet returns nothing. -/
private theorem feed_complete (d₀ : Defragger) (hF : Family k F) (hfull : Full k A)
    (ht : TracksFamily k F d) (hd : d.Spent) (hi : i < k) :
    (d.feed (F i)).1 = none ∧ Progress k F d₀ (A ++ [i]) (d.feed (F i)).2 := by
  have htracks := (hF.tracks_iff hi).2 ht
  by_cases hs : d.frags[(F i).fragId.toNat]? = some none
  · have hfills : d.Fills (F i) := ⟨hF.isFragment hi, htracks, hs⟩
    rw [feed_of_store hfills (hd.count_store hfills)]
    exact ⟨rfl, .complete (hfull.concat i) ⟨ht.1, (length_frags_store d (F i)).trans ht.2⟩
      (hd.store hfills)⟩
  · rw [feed_of_duplicate (hF.isFragment hi) htracks hs]
    exact ⟨rfl, .complete (hfull.concat i) ht hd⟩

/-- **What the next fragment does.** The message is returned when the last missing fragment
arrives, and only then. -/
theorem Progress.feed (hF : Family k F) (hd₀ : ¬ TracksFamily k F d₀) (h : Progress k F d₀ A d)
    (hi : i < k) :
    (d.feed (F i)).1 = (if Full k (A ++ [i]) ∧ ¬ Full k A then some (joined k F) else none) ∧
      Progress k F d₀ (A ++ [i]) (d.feed (F i)).2 := by
  cases h with
  | untouched =>
    obtain ⟨hnone, hmissing, hprogress⟩ := feed_untouched hF hd₀ hi
    exact ⟨by rw [hnone, List.nil_append, if_neg (fun h => hmissing h.1)], hprogress⟩
  | collecting hmissing hpkt hslots hd =>
    have h := feed_collecting d₀ hF hmissing hpkt hslots hd hi
    simpa only [hmissing, not_false_eq_true, and_true] using h
  | complete hfull ht hd =>
    have h := feed_complete d₀ hF hfull ht hd hi
    simpa only [hfull, not_true_eq_false, and_false, if_false] using h

theorem Progress.of_full (hF : Family k F) (h : Progress k F d₀ A d) (hfull : Full k A) :
    TracksFamily k F d ∧ d.Spent := by
  cases h with
  | untouched =>
    have h2 := hF.two_le
    exact absurd (hfull 0 (by omega)) (by simp)
  | collecting hmissing hpkt hslots hd => exact absurd hfull hmissing
  | complete hfull ht hd => exact ⟨ht, hd⟩

/-! ### Fragments in order -/

/-- The messages that feeding a sequence of messages returns. -/
def returned (d : Defragger) (ms : List UdpMessage) : List UdpMessage :=
  (Mealy.outputs feed d ms).filterMap id

/-- The messages that receiving a sequence of datagrams returns. -/
def received (d : Defragger) (datagrams : List Bytes) : List UdpMessage :=
  (Mealy.outputs receive d datagrams).filterMap id

theorem received_append (d : Defragger) (xs ys : List Bytes) :
    d.received (xs ++ ys) = d.received xs ++ (Mealy.final receive d xs).received ys := by
  rw [received, Mealy.outputs_append, List.filterMap_append]
  rfl

theorem returned_append (d : Defragger) (xs ys : List UdpMessage) :
    d.returned (xs ++ ys) = d.returned xs ++ (Mealy.final feed d xs).returned ys := by
  rw [returned, Mealy.outputs_append, List.filterMap_append]
  rfl

/-- Receiving the bytes of messages is feeding the messages. -/
theorem receive_map_wire {ms : List UdpMessage} (h : ∀ m ∈ ms, m.WellFormed) (d : Defragger) :
    d.received (ms.map UdpMessage.wire) = d.returned ms ∧
      Mealy.final receive d (ms.map UdpMessage.wire) = Mealy.final feed d ms := by
  induction ms generalizing d with
  | nil => exact ⟨rfl, rfl⟩
  | cons m ms ih =>
    have ih := ih (fun x hx => h x (List.mem_cons_of_mem m hx)) (d.feed m).2
    simp only [received, returned, List.map_cons, Mealy.outputs_cons, Mealy.final_cons,
      receive_wire (h m List.mem_cons_self)] at ih ⊢
    rw [List.filterMap_cons, List.filterMap_cons, ih.1, ih.2]
    exact ⟨rfl, rfl⟩

theorem full_range_iff {j : ℕ} : Full k (List.range j) ↔ k ≤ j := by
  constructor
  · intro h
    by_contra hlt
    exact absurd (List.mem_range.1 (h j (Nat.not_le.1 hlt))) (Nat.lt_irrefl j)
  · exact fun h i hi => List.mem_range.2 (hi.trans_le h)

/-- The fragments of a family, fed in order, return the message with the last of them. -/
theorem returned_range (hF : Family k F) (hd₀ : ¬ TracksFamily k F d₀) (j : ℕ) (hj : j ≤ k) :
    d₀.returned ((List.range j).map F) = (if j = k then [joined k F] else []) ∧
      Progress k F d₀ (List.range j) (Mealy.final feed d₀ ((List.range j).map F)) := by
  induction j with
  | zero =>
    have h2 := hF.two_le
    exact ⟨by rw [if_neg (by omega)]; rfl, .untouched⟩
  | succ j ih =>
    obtain ⟨hout, hprogress⟩ := ih (Nat.le_of_succ_le hj)
    obtain ⟨hnext, hprogress'⟩ := hprogress.feed hF hd₀ (Nat.lt_of_succ_le hj)
    simp only [← List.range_succ, full_range_iff] at hnext
    rw [← List.range_succ] at hprogress'
    rw [List.range_succ, List.map_append, List.map_singleton, returned_append, hout,
      if_neg (by omega), List.nil_append, Mealy.final_concat, ← List.range_succ]
    refine ⟨?_, hprogress'⟩
    simp only [returned, Mealy.outputs_cons, Mealy.outputs_nil, hnext]
    by_cases hlast : j + 1 = k
    · rw [if_pos hlast, if_pos (by omega)]
      rfl
    · rw [if_neg hlast, if_neg (by omega)]
      rfl

/-- A family that is delivered in order to a state that does not track it is returned, and the state
has completed it. -/
theorem returned_family (hF : Family k F) (hd₀ : ¬ TracksFamily k F d₀) :
    d₀.returned ((List.range k).map F) = [joined k F] ∧
      TracksFamily k F (Mealy.final feed d₀ ((List.range k).map F)) ∧
      (Mealy.final feed d₀ ((List.range k).map F)).Spent := by
  obtain ⟨hout, hprogress⟩ := returned_range hF hd₀ k le_rfl
  rw [if_pos rfl] at hout
  exact ⟨hout, hprogress.of_full hF (full_range_iff.2 le_rfl)⟩

/-- The fragments of a packet that was completed before are lost. -/
theorem returned_of_spent (hF : Family k F) (ht : TracksFamily k F d) (hd : d.Spent)
    (is : List ℕ) (his : ∀ i ∈ is, i < k) :
    d.returned (is.map F) = [] ∧ TracksFamily k F (Mealy.final feed d (is.map F)) ∧
      (Mealy.final feed d (is.map F)).Spent := by
  induction is generalizing d with
  | nil => exact ⟨rfl, ht, hd⟩
  | cons i is ih =>
    have hfull : Full k (List.range k) := full_range_iff.2 le_rfl
    obtain ⟨hnone, hprogress⟩ := feed_complete d hF hfull ht hd (his i List.mem_cons_self)
    obtain ⟨ht', hd'⟩ := hprogress.of_full hF (hfull.concat i)
    obtain ⟨hout, hfinal⟩ := ih ht' hd' fun j hj => his j (List.mem_cons_of_mem i hj)
    refine ⟨?_, hfinal⟩
    simp only [returned, List.map_cons, Mealy.outputs_cons, hnone] at hout ⊢
    rw [List.filterMap_cons, hout]
    rfl

/-! ### Whole deliveries -/

/-- One delivery of a sequence: a fragment of the message at hand, given by its number, or some
other message. -/
inductive Delivery where
  | fragment (i : ℕ)
  | message (x : UdpMessage)
  deriving DecidableEq

/-- A message that the reassembler returns as it is, or ignores for its fragment number. -/
def PassesBy (x : UdpMessage) : Prop := x.fragCount ≤ 1 ∨ x.fragCount ≤ x.fragId

instance (x : UdpMessage) : Decidable (PassesBy x) := inferInstanceAs (Decidable (_ ∨ _))

/-- Receive a delivery: the datagram of a fragment, serialized into a buffer of its size, or another
message. -/
def deliver (fs : List UdpMessage) (d : Defragger) : Delivery → Option UdpMessage × Defragger
  | .fragment i =>
    match fs[i]?.bind fun f => f.toDatagram f.size with
    | some datagram => d.receive datagram
    | none => (none, d)
  | .message x => d.feed x

theorem feed_of_passesBy {x : UdpMessage} (hx : PassesBy x) (d : Defragger) :
    d.feed x = (if x.fragCount ≤ 1 then some x else none, d) := by
  by_cases h1 : x.fragCount ≤ 1
  · rw [feed_of_whole h1, if_pos h1]
  · rw [feed_of_badId (hx.resolve_left h1) (UInt8.not_le.1 h1), if_neg h1]

/-- The numbers of the fragments that were delivered. -/
def arrivals (ds : List Delivery) : List ℕ :=
  ds.filterMap fun
    | .fragment i => some i
    | .message _ => none

theorem mem_arrivals {ds : List Delivery} {i : ℕ} : i ∈ arrivals ds ↔ .fragment i ∈ ds := by
  rw [arrivals, List.mem_filterMap]
  constructor
  · rintro ⟨δ, hδ, heq⟩
    cases δ with
    | fragment j =>
      simp only [Option.some.injEq] at heq
      exact heq ▸ hδ
    | message x => simp at heq
  · exact fun h => ⟨_, h, rfl⟩

theorem arrivals_append (ds es : List Delivery) :
    arrivals (ds ++ es) = arrivals ds ++ arrivals es :=
  List.filterMap_append

section Deliveries

variable {fs : List UdpMessage}

/-- The fragments in `fs` are the family, as their datagrams tell it. -/
def Carries (fs : List UdpMessage) (k : ℕ) (F : ℕ → UdpMessage) : Prop :=
  ∀ (d : Defragger) (i : ℕ), i < k → deliver fs d (.fragment i) = d.feed (F i)

/-- The progress of a packet along any sequence of deliveries. -/
theorem progress_final (hF : Family k F) (hd₀ : ¬ TracksFamily k F d₀) (hfs : Carries fs k F)
    (ds : List Delivery) (hfrag : ∀ i, .fragment i ∈ ds → i < k)
    (hmsg : ∀ x, .message x ∈ ds → PassesBy x) :
    Progress k F d₀ (arrivals ds) (Mealy.final (deliver fs) d₀ ds) := by
  induction ds using List.reverseRecOn with
  | nil => exact .untouched
  | append_singleton ds δ ih =>
    have ih := ih (fun i hi => hfrag i (List.mem_append_left _ hi))
      (fun x hx => hmsg x (List.mem_append_left _ hx))
    rw [Mealy.final_concat, arrivals_append]
    cases δ with
    | fragment i =>
      have hi := hfrag i (List.mem_append_right _ (List.mem_singleton.2 rfl))
      rw [hfs _ i hi]
      exact (ih.feed hF hd₀ hi).2
    | message x =>
      have hx := hmsg x (List.mem_append_right _ (List.mem_singleton.2 rfl))
      rw [deliver, feed_of_passesBy hx]
      change Progress k F d₀ (arrivals ds ++ []) _
      rwa [List.append_nil]

/-- The moment at which the last fragment arrives. -/
theorem exists_completion {ds : List Delivery} (h2 : 2 ≤ k) (hall : Full k (arrivals ds)) :
    ∃ t₀ i, ds[t₀]? = some (.fragment i) ∧ ∀ t, Full k (arrivals (ds.take t)) ↔ t₀ < t := by
  have hex : ∃ t, Full k (arrivals (ds.take t)) := ⟨ds.length, by rwa [List.take_length]⟩
  classical
  have hfind := Nat.find_spec hex
  have hmono (t : ℕ) : Full k (arrivals (ds.take t)) ↔ Nat.find hex ≤ t := by
    refine ⟨fun h => Nat.find_min' hex h, fun hle i hi => ?_⟩
    exact mem_arrivals.2 (List.take_subset_take_left ds hle (mem_arrivals.1 (hfind i hi)))
  obtain ⟨t₀, ht₀⟩ : ∃ t₀, Nat.find hex = t₀ + 1 := by
    refine Nat.exists_eq_succ_of_ne_zero fun h0 => ?_
    rw [h0] at hfind
    simpa [arrivals] using hfind 0 (by omega)
  have hbefore : ¬ Full k (arrivals (ds.take t₀)) := by
    rw [hmono]
    omega
  simp only [Full, not_forall] at hbefore
  obtain ⟨i, hi, hnot⟩ := hbefore
  have hmem := hfind i hi
  rw [mem_arrivals] at hmem hnot
  rw [ht₀, List.take_add_one, List.mem_append] at hmem
  refine ⟨t₀, i, ?_, fun t => by rw [hmono, ht₀, Nat.succ_le_iff]⟩
  simpa using hmem.resolve_left hnot

end Deliveries

/-! ### The fragments of a message -/

section Message

variable {m : UdpMessage} {maxSize : ℕ}

/-- The fragments of a message are a family, if they can be numbered. -/
theorem family_fragment (hsize : maxSize < m.size) (hheader : m.headerSize < maxSize)
    (hk : Protocol.fragCount m maxSize ≤ 255) :
    Family (Protocol.fragCount m maxSize)
      (fragment m (maxPayload m maxSize) (Protocol.fragCount m maxSize)) where
  two_le := two_le_fragCount hsize hheader
  le := hk
  packetId _ _ := rfl
  fragCount _ _ := UInt8.toNat_ofNat_of_lt' (Nat.lt_succ_of_le hk)
  fragId _ hi := UInt8.toNat_ofNat_of_lt' (Nat.lt_succ_of_le (hi.le.trans hk))

theorem joined_fragment (hheader : m.headerSize < maxSize) (k : ℕ) :
    joined (Protocol.fragCount m maxSize) (fragment m (maxPayload m maxSize) k) =
      { m with fragId := 0, fragCount := 1 } := by
  rw [joined, flatMap_data_fragment hheader]
  rfl

theorem carries_fragment (hm : m.WellFormed) (hsize : maxSize < m.size)
    (hheader : m.headerSize < maxSize) :
    Carries (fragUdpMessage m maxSize) (Protocol.fragCount m maxSize)
      (fragment m (maxPayload m maxSize) (Protocol.fragCount m maxSize)) := by
  intro d i hi
  rw [deliver, fragUdpMessage_eq hsize hheader, List.getElem?_map, List.getElem?_range hi]
  simp only [Option.map_some, Option.bind_some]
  rw [UdpMessage.toDatagram_eq le_rfl]
  exact receive_wire (fragment_wellFormed hm hheader _ hi) d

/-- **Reassembling undoes fragmenting in any order of delivery.** Of all deliveries of fragments of
`m`, exactly the one at which the last fragment arrives for the first time returns something, and it
returns `m`; the other messages are returned or ignored and leave the state alone. -/
theorem reassembles_any_order (m : UdpMessage) (maxSize : ℕ) (hm : m.WellFormed)
    (hheader : m.headerSize < maxSize) (hsize : maxSize < m.size)
    (hk : Protocol.fragCount m maxSize ≤ 255) (d : Defragger)
    (hd : ¬ (d.pktId = m.packetId ∧ d.frags.length = Protocol.fragCount m maxSize))
    (ds : List Delivery) (hfrag : ∀ i, .fragment i ∈ ds ↔ i < Protocol.fragCount m maxSize)
    (hmsg : ∀ x, .message x ∈ ds → PassesBy x) :
    ∃ t₀ i₀, ds[t₀]? = some (.fragment i₀) ∧
      (∀ t, (∀ i < Protocol.fragCount m maxSize, .fragment i ∈ ds.take t) ↔ t₀ < t) ∧
      (∀ t i, ds[t]? = some (.fragment i) →
        (Mealy.outputs (deliver (fragUdpMessage m maxSize)) d ds)[t]? =
          some (if t = t₀ then some { m with fragId := 0, fragCount := 1 } else none)) ∧
      ∀ t x, ds[t]? = some (.message x) →
        (Mealy.outputs (deliver (fragUdpMessage m maxSize)) d ds)[t]? =
          some (if x.fragCount ≤ 1 then some x else none) ∧
        Mealy.final (deliver (fragUdpMessage m maxSize)) d (ds.take (t + 1)) =
          Mealy.final (deliver (fragUdpMessage m maxSize)) d (ds.take t) := by
  have hF := family_fragment hsize hheader hk
  have hfs := carries_fragment hm hsize hheader
  have hall : Full (Protocol.fragCount m maxSize) (arrivals ds) :=
    fun i hi => mem_arrivals.2 ((hfrag i).2 hi)
  obtain ⟨t₀, i₀, ht₀, hmoment⟩ := exists_completion hF.two_le hall
  refine ⟨t₀, i₀, ht₀, ?_, ?_, ?_⟩
  · intro t
    simp only [← hmoment t, Full, mem_arrivals]
  · intro t i hi
    have hlt := (hfrag i).1 (List.mem_of_getElem? hi)
    have hprogress := progress_final hF hd hfs (ds.take t)
      (fun j hj => (hfrag j).1 (List.mem_of_mem_take hj))
      (fun x hx => hmsg x (List.mem_of_mem_take hx))
    have hnext : arrivals (ds.take t) ++ [i] = arrivals (ds.take (t + 1)) := by
      rw [List.take_add_one, hi, arrivals_append]
      rfl
    rw [Mealy.getElem?_outputs, hi, Option.map_some, hfs _ i hlt,
      (hprogress.feed hF hd hlt).1, joined_fragment hheader, hnext]
    simp only [hmoment, Option.some.injEq]
    congr 1
    exact propext ⟨fun h => by omega, fun h => by omega⟩
  · intro t x hx
    have hpass := hmsg x (List.mem_of_getElem? hx)
    rw [Mealy.getElem?_outputs, List.take_add_one, hx, Option.map_some, Option.toList_some,
      Mealy.final_concat, deliver, feed_of_passesBy hpass]
    exact ⟨rfl, rfl⟩

/-- Three fragments, delivered out of order and one of them twice, with another message between. -/
theorem reassembles_three_fragments :
    ∃ t : ℕ, (Mealy.outputs (deliver (fragUdpMessage ⟨1, 7, 0, 1, "a:1", [1, 2, 3]⟩ 13))
      Defragger.default [.fragment 2, .fragment 0, .message ⟨2, 0, 0, 1, "b:2", [9]⟩, .fragment 2,
        .fragment 1])[t]? = some (some (⟨1, 7, 0, 1, "a:1", [1, 2, 3]⟩ : UdpMessage)) := by
  have hcount : Protocol.fragCount ⟨1, 7, 0, 1, "a:1", [1, 2, 3]⟩ 13 = 3 := by decide
  obtain ⟨t₀, i₀, ht₀, -, hout, -⟩ :=
    reassembles_any_order ⟨1, 7, 0, 1, "a:1", [1, 2, 3]⟩ 13
      ⟨by decide, by decide, by decide⟩ (by decide) (by decide) (by rw [hcount]; decide)
      Defragger.default (by decide)
      [.fragment 2, .fragment 0, .message ⟨2, 0, 0, 1, "b:2", [9]⟩, .fragment 2, .fragment 1]
      (fun i => by rw [hcount]; simp; omega) (fun x hx => by simp at hx; subst hx; decide)
  exact ⟨t₀, (hout t₀ i₀ ht₀).trans (by rw [if_pos rfl])⟩

end Message

end Rsteria.Protocol.Defragger
