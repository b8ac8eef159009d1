import Mathlib

/-!
# A row of slots that are filled one at a time

A row of slots is a list of optional values. Its slots are filled in any order, each at most once,
and the row is complete when none of them is empty. This file counts the occupied slots and adds up
a weight over them, says what filling an empty slot does to both, and reads a complete row back.

## Main definitions

* `Slots.occupied` : the number of occupied slots.
* `Slots.weight` : the sum of a weight over the occupied slots.
* `Slots.clear` : the row with every slot emptied.

## Main results

* `Slots.occupied_set`, `Slots.weight_set` : filling an empty slot.
* `Slots.occupied_eq_length_iff` : a row is complete when every slot is occupied.
* `Slots.filterMap_eq_range_map` : the values of a complete row, in order.
-/

namespace Slots

variable {α : Type*}

/-- The number of occupied slots. -/
def occupied (slots : List (Option α)) : ℕ := slots.countP Option.isSome

/-- The sum of the weight `w` over the occupied slots. -/
def weight (w : α → ℕ) (slots : List (Option α)) : ℕ := (slots.map (Option.elim · 0 w)).sum

/-- The row with every slot emptied. -/
def clear (slots : List (Option α)) : List (Option α) := slots.map fun _ => none

theorem occupied_le_length (slots : List (Option α)) : occupied slots ≤ slots.length :=
  List.countP_le_length

@[simp] theorem occupied_nil : occupied ([] : List (Option α)) = 0 := rfl

@[simp] theorem occupied_replicate (n : ℕ) : occupied (List.replicate n (none : Option α)) = 0 := by
  simp [occupied, List.countP_replicate]

@[simp] theorem weight_replicate (w : α → ℕ) (n : ℕ) : weight w (List.replicate n none) = 0 := by
  simp [weight]

@[simp] theorem length_clear (slots : List (Option α)) : (clear slots).length = slots.length :=
  List.length_map _

@[simp] theorem occupied_clear (slots : List (Option α)) : occupied (clear slots) = 0 := by
  simp [occupied, clear]

theorem getElem?_replicate_ne (n i : ℕ) (a : α) :
    (List.replicate n (none : Option α))[i]? ≠ some (some a) := by
  rw [List.getElem?_replicate]
  split_ifs <;> simp

theorem getElem?_clear_ne (slots : List (Option α)) (i : ℕ) (a : α) :
    (clear slots)[i]? ≠ some (some a) := by
  rw [clear, List.map_const']
  exact getElem?_replicate_ne _ i a

/-- Filling an empty slot occupies one more. -/
theorem occupied_set {slots : List (Option α)} {i : ℕ} (h : slots[i]? = some none) (a : α) :
    occupied (slots.set i (some a)) = occupied slots + 1 := by
  obtain ⟨hi, hnone⟩ := List.getElem?_eq_some_iff.1 h
  simp [occupied, List.countP_set hi, hnone]

/-- Filling an empty slot adds the weight of the value. -/
theorem weight_set (w : α → ℕ) {slots : List (Option α)} {i : ℕ} (h : slots[i]? = some none)
    (a : α) : weight w (slots.set i (some a)) = weight w slots + w a := by
  induction slots generalizing i with
  | nil => simp at h
  | cons s slots ih =>
    cases i with
    | zero =>
      obtain rfl : s = none := by simpa using h
      simp [weight, Nat.add_comm]
    | succ i =>
      have := ih (by simpa using h)
      simp only [weight, List.set_cons_succ, List.map_cons, List.sum_cons] at this ⊢
      omega

/-- A row is complete when every slot is occupied. -/
theorem occupied_eq_length_iff {slots : List (Option α)} :
    occupied slots = slots.length ↔ ∀ i < slots.length, ∃ a, slots[i]? = some (some a) := by
  rw [occupied, List.countP_eq_length]
  constructor
  · intro h i hi
    obtain ⟨a, ha⟩ := Option.isSome_iff_exists.1 (h slots[i] (List.getElem_mem hi))
    exact ⟨a, by rw [List.getElem?_eq_getElem hi, ha]⟩
  · intro h s hs
    obtain ⟨i, hi, rfl⟩ := List.getElem_of_mem hs
    obtain ⟨a, ha⟩ := h i hi
    rw [List.getElem?_eq_getElem hi, Option.some.injEq] at ha
    rw [ha]
    rfl

/-- A row with an empty slot is not complete. -/
theorem occupied_lt_length {slots : List (Option α)} {i : ℕ} (h : slots[i]? = some none) :
    occupied slots < slots.length := by
  refine lt_of_le_of_ne (occupied_le_length slots) fun heq => ?_
  obtain ⟨a, ha⟩ := occupied_eq_length_iff.1 heq i (List.getElem?_eq_some_iff.1 h).1
  simp [h] at ha

/-- The values of a complete row, in order. -/
theorem filterMap_eq_range_map {slots : List (Option α)} {f : ℕ → α}
    (h : ∀ i < slots.length, slots[i]? = some (some (f i))) :
    slots.filterMap id = (List.range slots.length).map f := by
  have hslots : slots = (List.range slots.length).map fun i => some (f i) := by
    apply List.ext_getElem (by simp) fun i hi _ => ?_
    have := h i hi
    rw [List.getElem?_eq_getElem hi, Option.some.injEq] at this
    simp [this]
  conv_lhs => rw [hslots]
  simp [List.filterMap_map, List.filterMap_eq_map']

end Slots
