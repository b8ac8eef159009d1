import Mathlib.Data.List.Basic
import Mathlib.Order.Lattice
import Mathlib.Tactic.Ring

/-!
# Cutting a list into pieces of a fixed size

For a size `p > 0`, the piece with index `i` of a list consists of the elements at the positions
`i * p, …, i * p + p - 1` that the list has. A list of length `n` has `divCeil n p` pieces that are
not empty; they all have `p` elements except possibly the last, and their concatenation is the list.

## Main definitions

* `Pieces.divCeil` : division rounding up.
* `Pieces.piece` : the piece with a given index.
* `Pieces.pieces` : all pieces that are not empty.
* `Pieces.cut` : the pieces of given lengths.

## Main results

* `Pieces.lt_divCeil_iff` : which pieces are not empty.
* `Pieces.flatMap_piece` : the first pieces concatenate to a prefix, and all of them to the list
  (`Pieces.flatMap_piece_divCeil`).
* `Pieces.divCeil_length_flatten_le` : no cut into parts of at most that size has fewer parts.
-/

namespace Pieces

variable {α : Type*}

/-- Division rounding up. -/
def divCeil (n p : ℕ) : ℕ := (n + p - 1) / p

theorem lt_divCeil_iff {n p : ℕ} (hp : 0 < p) (i : ℕ) : i < divCeil n p ↔ i * p < n := by
  rw [divCeil, Nat.lt_iff_add_one_le, Nat.le_div_iff_mul_le hp, Nat.add_mul]
  omega

theorem divCeil_le_iff {n p : ℕ} (hp : 0 < p) (i : ℕ) : divCeil n p ≤ i ↔ n ≤ i * p := by
  rw [← not_lt, lt_divCeil_iff hp, not_lt]

theorem le_divCeil_mul {n p : ℕ} (hp : 0 < p) : n ≤ divCeil n p * p :=
  (divCeil_le_iff hp _).1 le_rfl

/-- One more piece starts at `o` exactly when the list goes on past `o`. -/
theorem divCeil_sub {n p o : ℕ} (hp : 0 < p) (ho : o < n) :
    divCeil (n - o) p = divCeil (n - min (o + p) n) p + 1 := by
  apply le_antisymm
  · rw [divCeil_le_iff hp, Nat.add_mul]
    have := le_divCeil_mul (n := n - min (o + p) n) hp
    omega
  · rw [Nat.add_one_le_iff, lt_divCeil_iff hp]
    by_cases h : divCeil (n - min (o + p) n) p = 0
    · rw [h]
      omega
    · have hlt : divCeil (n - min (o + p) n) p - 1 < divCeil (n - min (o + p) n) p := by omega
      have := (lt_divCeil_iff hp _).1 hlt
      rw [Nat.sub_mul] at this
      omega

/-- The piece with index `i` of a list cut into pieces of size `p`. -/
def piece (xs : List α) (p i : ℕ) : List α := (xs.drop (i * p)).take p

theorem length_piece_le (xs : List α) (p i : ℕ) : (piece xs p i).length ≤ p :=
  List.length_take_le p _

theorem length_piece (xs : List α) (p i : ℕ) :
    (piece xs p i).length = min p (xs.length - i * p) := by
  rw [piece, List.length_take, List.length_drop]

theorem piece_ne_nil {xs : List α} {p i : ℕ} (hp : 0 < p) (hi : i < divCeil xs.length p) :
    piece xs p i ≠ [] := by
  rw [lt_divCeil_iff hp] at hi
  rw [← List.length_pos_iff, length_piece]
  omega

/-- Every piece but the last is full. -/
theorem length_piece_of_succ_lt {xs : List α} {p i : ℕ} (hp : 0 < p)
    (hi : i + 1 < divCeil xs.length p) : (piece xs p i).length = p := by
  rw [lt_divCeil_iff hp, Nat.succ_mul] at hi
  rw [length_piece]
  omega

/-- The first `n` pieces make up the first `n * p` elements. -/
theorem flatMap_piece (xs : List α) (p n : ℕ) :
    (List.range n).flatMap (piece xs p) = xs.take (n * p) := by
  induction n with
  | zero => simp
  | succ n ih =>
    rw [List.range_succ, List.flatMap_append, ih, List.flatMap_singleton, piece, Nat.succ_mul,
      List.take_add]

/-- All pieces together make up the list. -/
theorem flatMap_piece_divCeil {xs : List α} {p : ℕ} (hp : 0 < p) :
    (List.range (divCeil xs.length p)).flatMap (piece xs p) = xs := by
  rw [flatMap_piece, List.take_of_length_le (le_divCeil_mul hp)]

/-- No cut into parts of at most `p` elements has fewer parts. -/
theorem divCeil_length_flatten_le {xss : List (List α)} {p : ℕ} (hp : 0 < p)
    (h : ∀ xs ∈ xss, xs.length ≤ p) : divCeil xss.flatten.length p ≤ xss.length := by
  rw [divCeil_le_iff hp]
  induction xss with
  | nil => simp
  | cons xs xss ih =>
    have hxs := h xs List.mem_cons_self
    have hrest := ih fun ys hys => h ys (List.mem_cons_of_mem xs hys)
    rw [List.flatten_cons, List.length_append, List.length_cons, Nat.succ_mul]
    omega

/-- The pieces of a list that are not empty. -/
def pieces (xs : List α) (p : ℕ) : List (List α) :=
  (List.range (divCeil xs.length p)).map (piece xs p)

/-- A list that is cut at its length stays in one piece. -/
theorem pieces_length {xs : List α} (h : xs ≠ []) : pieces xs xs.length = [xs] := by
  have hpos := List.length_pos_iff.2 h
  have hone : divCeil xs.length xs.length = 1 := by
    apply le_antisymm
    · rw [divCeil_le_iff hpos, Nat.one_mul]
    · rw [Nat.one_le_iff_ne_zero, ← Nat.pos_iff_ne_zero, lt_divCeil_iff hpos, Nat.zero_mul]
      exact hpos
  rw [pieces, hone, List.range_one, List.map_singleton, piece, Nat.zero_mul, List.drop_zero,
    List.take_length]

/-- The consecutive pieces of a list with the given lengths. -/
def cut : List ℕ → List α → List (List α)
  | [], _ => []
  | n :: ns, xs => xs.take n :: cut ns (xs.drop n)

theorem flatten_cut {ns : List ℕ} {xs : List α} (h : xs.length = ns.sum) :
    (cut ns xs).flatten = xs := by
  induction ns generalizing xs with
  | nil => exact (List.length_eq_zero_iff.1 h).symm
  | cons n ns ih =>
    rw [List.sum_cons] at h
    rw [cut, List.flatten_cons, ih (by rw [List.length_drop]; omega), List.take_append_drop]

theorem map_length_cut {ns : List ℕ} {xs : List α} (h : xs.length = ns.sum) :
    (cut ns xs).map List.length = ns := by
  induction ns generalizing xs with
  | nil => rfl
  | cons n ns ih =>
    rw [List.sum_cons] at h
    rw [cut, List.map_cons, ih (by rw [List.length_drop]; omega), List.length_take]
    congr 1
    omega

end Pieces
