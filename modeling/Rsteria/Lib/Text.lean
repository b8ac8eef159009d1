import Mathlib.Data.List.TakeDrop
import Mathlib.Data.List.TakeWhile

/-!
# Text as lists of characters

The operations on texts that a parser of configuration values uses: taking white space off both
ends, cutting a text in two at a separator, and reading an unsigned decimal number with an upper
bound. A number may start with a plus sign; it has at least one digit, and every prefix of it is
within the bound.

## Main definitions

* `Text.isWhitespace`, `Text.trim`.
* `Text.splitOnce`, `Text.rsplitOnce` : cut at the first or the last separator.
* `Text.parseUnsigned` : read an unsigned number.
* `Text.IsUnsigned` : the texts of a number.

## Main results

* `Text.splitOnce_eq_some_iff`, `Text.splitOnce_eq_none_iff`, `Text.rsplitOnce_append`.
* `Text.parseUnsigned_eq_some_iff` : which texts are read, and as which number.
-/

namespace Text

/-- The characters with the Unicode property `White_Space`. -/
def isWhitespace (c : Char) : Bool :=
  let n := c.toNat
  (9 ≤ n && n ≤ 13) || n == 0x20 || n == 0x85 || n == 0xA0 || n == 0x1680 ||
    (0x2000 ≤ n && n ≤ 0x200A) || n == 0x2028 || n == 0x2029 || n == 0x202F || n == 0x205F ||
    n == 0x3000

/-- The text without white space at its ends. -/
def trim (s : List Char) : List Char :=
  ((s.dropWhile isWhitespace).reverse.dropWhile isWhitespace).reverse

/-- What is before and after the first occurrence of a separator. -/
def splitOnce (sep : Char) (s : List Char) : Option (List Char × List Char) :=
  match s.span (· != sep) with
  | (before, _ :: rest) => some (before, rest)
  | (_, []) => none

/-- What is before and after the last occurrence of a separator. -/
def rsplitOnce (sep : Char) (s : List Char) : Option (List Char × List Char) :=
  (splitOnce sep s.reverse).map fun (rest, before) => (before.reverse, rest.reverse)

/-- Read one more digit of a number that must not exceed `max`. -/
def readDigit (max n : ℕ) (c : Char) : Option ℕ :=
  if c.isDigit then
    let n := n * 10 + (c.toNat - '0'.toNat)
    if n ≤ max then some n else none
  else none

/-- Read a number of at most `max`. -/
def parseUnsigned (max : ℕ) (s : List Char) : Option ℕ :=
  let digits := match s with
    | '+' :: digits => digits
    | _ => s
  if digits.isEmpty then none else digits.foldlM (readDigit max) 0

/-- Taking off white space leaves every other character. -/
theorem mem_trim_of_mem {c : Char} {s : List Char} (hc : isWhitespace c = false) (h : c ∈ s) :
    c ∈ trim s := by
  have hdrop {l : List Char} (hl : c ∈ l) : c ∈ l.dropWhile isWhitespace := by
    rw [← List.takeWhile_append_dropWhile (p := isWhitespace) (l := l)] at hl
    refine (List.mem_append.1 hl).resolve_left fun htake => ?_
    exact absurd (List.mem_takeWhile_imp htake) (by simp [hc])
  rw [trim, List.mem_reverse]
  exact hdrop (List.mem_reverse.2 (hdrop h))

/-! ### Cutting a text in two -/

theorem splitOnce_append {sep : Char} {a : List Char} (ha : sep ∉ a) (b : List Char) :
    splitOnce sep (a ++ sep :: b) = some (a, b) := by
  have hall : ∀ c ∈ a, (c != sep) = true := fun c hc => bne_iff_ne.2 fun heq => ha (heq ▸ hc)
  rw [splitOnce, List.span_eq_takeWhile_dropWhile, List.takeWhile_append_of_pos hall,
    List.dropWhile_append_of_pos hall]
  simp

theorem splitOnce_of_notMem {sep : Char} {s : List Char} (hs : sep ∉ s) :
    splitOnce sep s = none := by
  have hall : ∀ c ∈ s, (c != sep) = true := fun c hc => bne_iff_ne.2 fun heq => hs (heq ▸ hc)
  rw [splitOnce, List.span_eq_takeWhile_dropWhile, List.dropWhile_eq_nil_iff.2 hall]

/-- A text is cut at the first separator. -/
theorem splitOnce_eq_some_iff {sep : Char} {s a b : List Char} :
    splitOnce sep s = some (a, b) ↔ s = a ++ sep :: b ∧ sep ∉ a := by
  constructor
  · intro h
    by_cases hs : sep ∈ s
    · obtain ⟨a', b', rfl, ha'⟩ := List.eq_append_cons_of_mem hs
      rw [splitOnce_append ha'] at h
      obtain ⟨rfl, rfl⟩ := Prod.mk.inj (Option.some.inj h)
      exact ⟨rfl, ha'⟩
    · rw [splitOnce_of_notMem hs] at h
      exact absurd h (by simp)
  · rintro ⟨rfl, ha⟩
    exact splitOnce_append ha b

/-- A text without a separator is not cut. -/
theorem splitOnce_eq_none_iff {sep : Char} {s : List Char} : splitOnce sep s = none ↔ sep ∉ s := by
  refine ⟨fun hnone hs => ?_, splitOnce_of_notMem⟩
  obtain ⟨a, b, rfl, ha⟩ := List.eq_append_cons_of_mem hs
  rw [splitOnce_append ha] at hnone
  exact absurd hnone (by simp)

/-- A text is cut at the last separator. -/
theorem rsplitOnce_append {sep : Char} {b : List Char} (hb : sep ∉ b) (a : List Char) :
    rsplitOnce sep (a ++ sep :: b) = some (a, b) := by
  have hreverse : (a ++ sep :: b).reverse = b.reverse ++ sep :: a.reverse := by simp
  rw [rsplitOnce, hreverse, splitOnce_append (mt List.mem_reverse.1 hb)]
  simp

theorem rsplitOnce_of_notMem {sep : Char} {s : List Char} (hs : sep ∉ s) :
    rsplitOnce sep s = none := by
  rw [rsplitOnce, splitOnce_of_notMem (mt List.mem_reverse.1 hs), Option.map_none]

/-! ### Reading a number -/

/-- The number that digits stand for. -/
def value (digits : List Char) : ℕ := digits.foldl (fun n c => n * 10 + (c.toNat - '0'.toNat)) 0

/-- The texts of the number `n`: a plus sign or nothing, and at least one digit. -/
def IsUnsigned (s : List Char) (n : ℕ) : Prop :=
  ∃ sign digits, s = sign ++ digits ∧ (sign = [] ∨ sign = ['+']) ∧ digits ≠ [] ∧
    (∀ c ∈ digits, c.isDigit = true) ∧ value digits = n

/-- More digits do not make a number smaller. -/
private theorem le_foldl_value (digits : List Char) (n : ℕ) :
    n ≤ digits.foldl (fun n c => n * 10 + (c.toNat - '0'.toNat)) n := by
  induction digits generalizing n with
  | nil => exact Nat.le_refl n
  | cons c digits ih =>
    rw [List.foldl_cons]
    have hstep : n ≤ n * 10 + (c.toNat - '0'.toNat) := by omega
    exact Nat.le_trans hstep (ih _)

/-- Digits are read if they stand for a number within the bound. -/
theorem foldlM_readDigit_eq_some_iff {max n m : ℕ} {digits : List Char} (hn : n ≤ max) :
    digits.foldlM (readDigit max) n = some m ↔ (∀ c ∈ digits, c.isDigit = true) ∧
      digits.foldl (fun n c => n * 10 + (c.toNat - '0'.toNat)) n = m ∧ m ≤ max := by
  induction digits generalizing n with
  | nil =>
    simp only [List.foldlM_nil, Option.pure_def, Option.some.injEq, List.foldl_nil]
    constructor
    · rintro rfl
      exact ⟨by simp, rfl, hn⟩
    · rintro ⟨-, rfl, -⟩
      rfl
  | cons c digits ih =>
    rw [List.foldlM_cons, List.foldl_cons, List.forall_mem_cons, readDigit]
    by_cases hc : c.isDigit = true
    · by_cases hle : n * 10 + (c.toNat - '0'.toNat) ≤ max
      · rw [if_pos hc]
        simp only [hle, if_true, Option.bind_eq_bind, Option.bind_some, ih hle, hc, true_and]
      · -- The number that is read so far exceeds the bound, and so does the whole.
        rw [if_pos hc]
        simp only [hle, if_false, Option.bind_eq_bind, Option.bind_none, reduceCtorEq, false_iff]
        rintro ⟨-, rfl, hm⟩
        exact hle (Nat.le_trans (le_foldl_value digits _) hm)
    · rw [if_neg hc]
      simp [hc]

/-- What is read as a number. -/
theorem parseUnsigned_eq_some_iff {max n : ℕ} {s : List Char} :
    parseUnsigned max s = some n ↔ IsUnsigned s n ∧ n ≤ max := by
  have hread (digits : List Char) :
      (if digits.isEmpty = true then none else digits.foldlM (readDigit max) 0) = some n ↔
        digits ≠ [] ∧ (∀ c ∈ digits, c.isDigit = true) ∧ value digits = n ∧ n ≤ max := by
    cases digits with
    | nil => simp
    | cons c digits =>
      rw [if_neg (by simp), foldlM_readDigit_eq_some_iff (Nat.zero_le max), value]
      simp
  by_cases hplus : ∃ digits, s = '+' :: digits
  · obtain ⟨digits, rfl⟩ := hplus
    rw [show parseUnsigned max ('+' :: digits) =
      if digits.isEmpty = true then none else digits.foldlM (readDigit max) 0 from rfl, hread]
    constructor
    · rintro ⟨hne, hdigits, hvalue, hle⟩
      exact ⟨⟨['+'], digits, rfl, .inr rfl, hne, hdigits, hvalue⟩, hle⟩
    · rintro ⟨⟨sign, digits', heq, hsign, hne, hdigits, hvalue⟩, hle⟩
      rcases hsign with rfl | rfl
      · -- A plus sign is not a digit.
        rw [List.nil_append] at heq
        exact absurd (hdigits '+' (heq ▸ List.mem_cons_self)) (by decide)
      · obtain rfl : digits = digits' := (List.cons.inj heq).2
        exact ⟨hne, hdigits, hvalue, hle⟩
  · have hnone (digits : List Char) (heq : s = '+' :: digits) : False := hplus ⟨digits, heq⟩
    rw [parseUnsigned.eq_2 max s hnone, hread]
    constructor
    · rintro ⟨hne, hdigits, hvalue, hle⟩
      exact ⟨⟨[], s, rfl, .inl rfl, hne, hdigits, hvalue⟩, hle⟩
    · rintro ⟨⟨sign, digits, rfl, hsign, hne, hdigits, hvalue⟩, hle⟩
      rcases hsign with rfl | rfl
      · exact ⟨hne, hdigits, hvalue, hle⟩
      · exact absurd ⟨digits, rfl⟩ hplus

end Text
