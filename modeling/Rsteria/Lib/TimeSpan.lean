import Mathlib.Data.Nat.Notation
import Mathlib.Order.Basic
import Mathlib.Tactic.NormNum

/-!
# Spans of time

A span of time is a number of nanoseconds, less than `2 ^ 64` seconds. It is made from a number of
seconds or of milliseconds that fits 64 bits, and read back in milliseconds, which need not fit.
Sums and differences are checked: they are `none` where the result is not a span, which is where an
unchecked operation panics. `randomRange` is the choice of a number between two bounds, `none` if
there is no such number.

## Main definitions

* `TimeSpan`, `TimeSpan.fromSecs`, `TimeSpan.fromMillis`, `TimeSpan.asMillis`.
* `TimeSpan.checkedAdd`, `TimeSpan.checkedSub`.
* `randomRange`.

## Main results

* `TimeSpan.checkedAdd_eq_some`, `TimeSpan.checkedSub_eq_some` : when the result is a span.
* `TimeSpan.fromMillis_le` : the milliseconds of a span, cut off at 64 bits, are no longer than it.
* `exists_randomRange_iff` : the choices are the numbers between the bounds.
-/

/-- A span of time, in nanoseconds. -/
@[ext]
structure TimeSpan where
  nanos : ℕ
  nanos_lt : nanos < 2 ^ 64 * 10 ^ 9
  deriving DecidableEq, Repr

namespace TimeSpan

instance : LE TimeSpan := ⟨fun a b => a.nanos ≤ b.nanos⟩

instance : DecidableLE TimeSpan := fun a b => inferInstanceAs (Decidable (a.nanos ≤ b.nanos))

/-- A number of seconds. -/
def fromSecs (secs : UInt64) : TimeSpan :=
  ⟨secs.toNat * 10 ^ 9, Nat.mul_lt_mul_of_pos_right secs.toNat_lt (by norm_num)⟩

/-- A number of milliseconds. -/
def fromMillis (millis : UInt64) : TimeSpan :=
  ⟨millis.toNat * 10 ^ 6, by have := millis.toNat_lt; omega⟩

/-- The whole milliseconds of a span. -/
def asMillis (a : TimeSpan) : ℕ := a.nanos / 10 ^ 6

/-- The sum, if it is a span. -/
def checkedAdd (a b : TimeSpan) : Option TimeSpan :=
  if h : a.nanos + b.nanos < 2 ^ 64 * 10 ^ 9 then some ⟨a.nanos + b.nanos, h⟩ else none

/-- The difference, if it is not negative. -/
def checkedSub (a b : TimeSpan) : Option TimeSpan :=
  if b ≤ a then some ⟨a.nanos - b.nanos, (Nat.sub_le _ _).trans_lt a.nanos_lt⟩ else none

variable {a b c : TimeSpan}

theorem le_iff : a ≤ b ↔ a.nanos ≤ b.nanos := Iff.rfl

@[simp] theorem nanos_fromSecs (secs : UInt64) : (fromSecs secs).nanos = secs.toNat * 10 ^ 9 := rfl

@[simp] theorem nanos_fromMillis (millis : UInt64) :
    (fromMillis millis).nanos = millis.toNat * 10 ^ 6 :=
  rfl

/-- A sum that is not longer than a span is a span. -/
theorem checkedAdd_eq_some (h : a.nanos + b.nanos ≤ c.nanos) :
    ∃ sum, a.checkedAdd b = some sum ∧ sum.nanos = a.nanos + b.nanos :=
  ⟨⟨a.nanos + b.nanos, h.trans_lt c.nanos_lt⟩, dif_pos (h.trans_lt c.nanos_lt), rfl⟩

theorem checkedSub_eq_some (h : b ≤ a) :
    ∃ diff, a.checkedSub b = some diff ∧ diff.nanos = a.nanos - b.nanos :=
  ⟨_, if_pos h, rfl⟩

/-- Cutting the number of milliseconds off at 64 bits makes it smaller, if anything. -/
theorem fromMillis_le {millis : UInt64} (h : millis ≤ UInt64.ofNat a.asMillis) :
    (fromMillis millis).nanos ≤ a.nanos := by
  rw [UInt64.le_iff_toNat_le, UInt64.toNat_ofNat'] at h
  have hle : millis.toNat ≤ a.asMillis := h.trans (Nat.mod_le _ _)
  calc (fromMillis millis).nanos = millis.toNat * 10 ^ 6 := nanos_fromMillis millis
    _ ≤ a.asMillis * 10 ^ 6 := Nat.mul_le_mul_right _ hle
    _ ≤ a.nanos := Nat.div_mul_le_self _ _

end TimeSpan

/-- The number between `lo` and `hi`, both included, that is chosen by `r`, if there is one. -/
def randomRange (lo hi : UInt64) (r : ℕ) : Option UInt64 :=
  if lo ≤ hi then some (UInt64.ofNat (lo.toNat + r % (hi.toNat - lo.toNat + 1))) else none

/-- The choices are the numbers between the bounds. -/
theorem exists_randomRange_iff {lo hi x : UInt64} :
    (∃ r, randomRange lo hi r = some x) ↔ lo ≤ x ∧ x ≤ hi := by
  have hlo := lo.toNat_lt
  have hhi := hi.toNat_lt
  simp only [randomRange, UInt64.le_iff_toNat_le]
  constructor
  · rintro ⟨r, h⟩
    split_ifs at h with hle
    have hmod : r % (hi.toNat - lo.toNat + 1) < hi.toNat - lo.toNat + 1 :=
      Nat.mod_lt r (Nat.succ_pos _)
    have hlt : lo.toNat + r % (hi.toNat - lo.toNat + 1) < 2 ^ 64 := by omega
    rw [← Option.some.inj h, UInt64.toNat_ofNat_of_lt' hlt]
    omega
  · rintro ⟨hlox, hxhi⟩
    refine ⟨x.toNat - lo.toNat, ?_⟩
    rw [if_pos (hlox.trans hxhi), Nat.mod_eq_of_lt (by omega), Nat.add_sub_cancel' hlox,
      UInt64.ofNat_toNat]
