import Mathlib.Data.List.Basic
import Rsteria.Lib.Text

/-!
# Texts by byte offset, and numbers in a radix

A text is encoded in UTF-8, and an offset into it counts bytes. An offset between the bytes of one
character is not a place where the text can be cut: slicing there has no value, which stands for the
panic of the program that does it. All cuts at one offset agree (`append_inj_of_byteLen`).

`fromStrRadix` reads an unsigned number in a radix. As in `parseUnsigned`, a plus sign may stand in
front of the digits, so a text of two characters is read if it is two digits, or a plus sign and one
digit (`fromStrRadix_pair`).

## Main definitions

* `Text.byteLen`, `Text.splitAtByte`, `Text.sliceBytes?`.
* `Text.toDigit`, `Text.fromStrRadix`.

## Main results

* `Text.splitAtByte_eq_some_iff`, `Text.sliceBytes?_eq_some_iff` : where a text can be cut.
* `Text.fromStrRadix_pair` : the numbers of two hexadecimal characters.
-/

namespace Text

/-- The number of bytes of a text in UTF-8. -/
def byteLen : List Char → ℕ
  | [] => 0
  | c :: s => c.utf8Size + byteLen s

/-- Cut a text after `n` bytes; `none` if that is not between two characters. -/
def splitAtByte (n : ℕ) : List Char → Option (List Char × List Char)
  | [] => if n = 0 then some ([], []) else none
  | c :: s =>
    if n = 0 then some ([], c :: s)
    else if c.utf8Size ≤ n then
      (splitAtByte (n - c.utf8Size) s).map fun (before, rest) => (c :: before, rest)
    else none

/-- The slice `i..j` of a text, by byte offsets; `none` if an offset is not between two
characters. -/
def sliceBytes? (s : List Char) (i j : ℕ) : Option (List Char) :=
  if i ≤ j then do
    let (_, rest) ← splitAtByte i s
    let (slice, _) ← splitAtByte (j - i) rest
    return slice
  else none

/-- The value of a digit in radix 36. -/
def digitValue (c : Char) : Option ℕ :=
  if c.isDigit then some (c.toNat - '0'.toNat)
  else if c.isLower then some (c.toNat - 'a'.toNat + 10)
  else if c.isUpper then some (c.toNat - 'A'.toNat + 10)
  else none

/-- `char::to_digit`: the value of a digit in a radix of at most 36. -/
def toDigit (radix : ℕ) (c : Char) : Option ℕ := (digitValue c).filter (· < radix)

/-- Read one more digit of a number that must not exceed `max`. -/
def readRadixDigit (radix max n : ℕ) (c : Char) : Option ℕ := do
  let digit ← toDigit radix c
  let n := n * radix + digit
  if n ≤ max then some n else none

/-- Read a number of at most `max` in a radix. -/
def fromStrRadix (radix max : ℕ) (s : List Char) : Option ℕ :=
  let digits := match s with
    | '+' :: digits => digits
    | _ => s
  if digits.isEmpty then none else digits.foldlM (readRadixDigit radix max) 0

variable {s a b : List Char} {c : Char} {n : ℕ}

/-! ### Cutting at byte offsets -/

@[simp]
theorem byteLen_nil : byteLen [] = 0 := rfl

@[simp]
theorem byteLen_cons : byteLen (c :: s) = c.utf8Size + byteLen s := rfl

@[simp]
theorem byteLen_append : byteLen (a ++ b) = byteLen a + byteLen b := by
  induction a with
  | nil => simp
  | cons c a ih => rw [List.cons_append, byteLen_cons, byteLen_cons, ih, Nat.add_assoc]

theorem byteLen_eq_zero_iff : byteLen s = 0 ↔ s = [] := by
  cases s with
  | nil => simp
  | cons c s =>
    have hc := c.utf8Size_pos
    simp only [byteLen_cons, reduceCtorEq, iff_false]
    omega

/-- A text of one-byte characters has as many bytes as characters. -/
theorem byteLen_eq_length (h : ∀ c ∈ s, c.utf8Size = 1) : byteLen s = s.length := by
  induction s with
  | nil => rfl
  | cons c s ih =>
    obtain ⟨hc, hs⟩ := List.forall_mem_cons.1 h
    rw [byteLen_cons, hc, ih hs, List.length_cons, Nat.add_comm]

/-- A text is cut after `n` bytes into what has these bytes and the rest. -/
theorem splitAtByte_eq_some_iff : splitAtByte n s = some (a, b) ↔ s = a ++ b ∧ byteLen a = n := by
  induction s generalizing n a with
  | nil =>
    rw [splitAtByte]
    constructor
    · intro h
      split_ifs at h with hn
      obtain ⟨rfl, rfl⟩ := Prod.mk.inj (Option.some.inj h)
      exact ⟨rfl, hn.symm⟩
    · rintro ⟨hs, rfl⟩
      obtain ⟨rfl, rfl⟩ := List.append_eq_nil_iff.1 hs.symm
      rfl
  | cons c s ih =>
    have hc := c.utf8Size_pos
    rw [splitAtByte]
    constructor
    · intro h
      split_ifs at h with hn hle
      · obtain ⟨rfl, rfl⟩ := Prod.mk.inj (Option.some.inj h)
        exact ⟨rfl, hn.symm⟩
      · obtain ⟨⟨before, rest⟩, hsplit, h⟩ := Option.map_eq_some_iff.1 h
        obtain ⟨rfl, rfl⟩ := Prod.mk.inj h
        obtain ⟨rfl, hlen⟩ := ih.1 hsplit
        refine ⟨rfl, ?_⟩
        rw [byteLen_cons, hlen]
        omega
    · rintro ⟨hs, rfl⟩
      cases a with
      | nil => simpa using hs
      | cons c' a =>
        obtain ⟨rfl, rfl⟩ := List.cons.inj hs
        have hne : byteLen (c :: a) ≠ 0 := mt byteLen_eq_zero_iff.1 (List.cons_ne_nil c a)
        have hle : c.utf8Size ≤ byteLen (c :: a) := by simp
        have hsub : byteLen (c :: a) - c.utf8Size = byteLen a := by simp
        rw [if_neg hne, if_pos hle, hsub, ih.2 ⟨rfl, rfl⟩]
        rfl

/-- Two cuts at the same offset are the same cut. -/
theorem append_inj_of_byteLen {a' b' : List Char} (h : a ++ b = a' ++ b')
    (hlen : byteLen a = byteLen a') : a = a' ∧ b = b' := by
  have hsplit : splitAtByte (byteLen a) (a ++ b) = some (a, b) :=
    splitAtByte_eq_some_iff.2 ⟨rfl, rfl⟩
  have hsplit' : splitAtByte (byteLen a) (a ++ b) = some (a', b') :=
    splitAtByte_eq_some_iff.2 ⟨h, hlen.symm⟩
  exact Prod.mk.inj (Option.some.inj (hsplit.symm.trans hsplit'))

/-- A slice is what stands between two cuts. -/
theorem sliceBytes?_eq_some_iff {i j : ℕ} {slice : List Char} (hij : i ≤ j) :
    sliceBytes? s i j = some slice ↔ ∃ before rest, s = before ++ (slice ++ rest) ∧
      byteLen before = i ∧ byteLen slice = j - i := by
  rw [sliceBytes?, if_pos hij]
  constructor
  · intro h
    obtain ⟨⟨before, rest⟩, hsplit, h⟩ := Option.bind_eq_some_iff.1 h
    obtain ⟨⟨slice', rest'⟩, hsplit', h⟩ := Option.bind_eq_some_iff.1 h
    obtain rfl : slice' = slice := Option.some.inj h
    obtain ⟨rfl, hbefore⟩ := splitAtByte_eq_some_iff.1 hsplit
    obtain ⟨rfl, hslice⟩ := splitAtByte_eq_some_iff.1 hsplit'
    exact ⟨before, rest', rfl, hbefore, hslice⟩
  · rintro ⟨before, rest, rfl, hbefore, hslice⟩
    have hsplit := splitAtByte_eq_some_iff.2 ⟨(rfl : before ++ (slice ++ rest) = _), hbefore⟩
    have hsplit' := splitAtByte_eq_some_iff.2 ⟨(rfl : slice ++ rest = _), hslice⟩
    rw [hsplit]
    simp only [Option.bind_eq_bind, Option.bind_some, hsplit']
    rfl

/-! ### Numbers in a radix -/

/-- A digit is an ASCII letter or digit, and its value is below the radix. -/
theorem toDigit_spec {radix digit : ℕ} (h : toDigit radix c = some digit) :
    c.utf8Size = 1 ∧ digit < radix := by
  rw [toDigit, Option.filter_eq_some_iff] at h
  obtain ⟨hvalue, hlt⟩ := h
  refine ⟨Char.utf8Size_eq_one_iff.2 ?_, of_decide_eq_true hlt⟩
  rw [digitValue] at hvalue
  split_ifs at hvalue with hdigit hlower hupper
  · have hle : c.val ≤ '9'.val := of_decide_eq_true (Bool.and_eq_true_iff.1 hdigit).2
    exact UInt32.le_trans hle (by decide)
  · have hle : c.val ≤ 'z'.val := of_decide_eq_true (Bool.and_eq_true_iff.1 hlower).2
    exact UInt32.le_trans hle (by decide)
  · have hle : c.val ≤ 'Z'.val := (of_decide_eq_true hupper).2
    exact UInt32.le_trans hle (by decide)

theorem toDigit_plus : toDigit 16 '+' = none := by decide

/-- Two characters are read if they are two hexadecimal digits, or a plus sign and one. -/
theorem fromStrRadix_pair {x y : Char} :
    fromStrRadix 16 255 [x, y] = some n ↔
      (∃ hi lo, toDigit 16 x = some hi ∧ toDigit 16 y = some lo ∧ n = hi * 16 + lo) ∨
        x = '+' ∧ toDigit 16 y = some n := by
  by_cases hx : x = '+'
  · subst hx
    cases hy : toDigit 16 y with
    | none => simp [fromStrRadix, readRadixDigit, toDigit_plus, hy]
    | some lo =>
      have hlo := (toDigit_spec hy).2
      have hle : lo ≤ 255 := by omega
      simp [fromStrRadix, readRadixDigit, toDigit_plus, hy, hle]
  · have hnone (digits : List Char) (heq : [x, y] = '+' :: digits) : False :=
      hx (List.cons.inj heq).1
    rw [fromStrRadix.eq_2 16 255 [x, y] hnone]
    cases hx' : toDigit 16 x with
    | none => simp [readRadixDigit, hx, hx']
    | some hi =>
      have hhi := (toDigit_spec hx').2
      have hhi' : hi ≤ 255 := by omega
      cases hy : toDigit 16 y with
      | none => simp [readRadixDigit, hx, hx', hy, hhi']
      | some lo =>
        have hlo := (toDigit_spec hy).2
        have hle : hi * 16 + lo ≤ 255 := by omega
        simp [readRadixDigit, hx, hx', hy, hhi', hle, eq_comm]

/-- Two bytes that are read as a number are two characters. -/
theorem fromStrRadix_of_byteLen (hlen : byteLen s = 2) (h : fromStrRadix 16 255 s = some n) :
    ∃ x y, s = [x, y] ∧ x.utf8Size = 1 ∧ y.utf8Size = 1 := by
  match s with
  | [] => exact absurd hlen (by simp)
  | [x] =>
    -- A character of two bytes is neither a plus sign nor a digit.
    have hsize : x.utf8Size = 2 := by simpa using hlen
    have hx : x ≠ '+' := fun heq => absurd (heq ▸ hsize) (by decide)
    have hnone (digits : List Char) (heq : [x] = '+' :: digits) : False :=
      hx (List.cons.inj heq).1
    have hdigit : toDigit 16 x = none := by
      cases hdigit : toDigit 16 x with
      | none => rfl
      | some d =>
        have hone := (toDigit_spec hdigit).1
        omega
    rw [fromStrRadix.eq_2 16 255 [x] hnone] at h
    simp [readRadixDigit, hdigit] at h
  | [x, y] =>
    have hx := x.utf8Size_pos
    have hy := y.utf8Size_pos
    simp only [byteLen_cons, byteLen_nil] at hlen
    exact ⟨x, y, rfl, by omega, by omega⟩
  | x :: y :: z :: s =>
    have hx := x.utf8Size_pos
    have hy := y.utf8Size_pos
    have hz := z.utf8Size_pos
    simp only [byteLen_cons] at hlen
    omega

end Text
