import Mathlib.Algebra.BigOperators.Fin
import Mathlib.Algebra.BigOperators.Group.List.Basic
import Mathlib.Algebra.Order.BigOperators.Group.Finset
import Mathlib.Data.Nat.ModEq

/-!
# Sliding windows in a ring of cells

A ring of `n` cells counts values by the time at which they are recorded. The value at time `t` goes
to the cell `t % n`; a cell that holds another time is overwritten, and nothing is cleared before
that. A window sums the cells that are not older than `n`.

If the times do not decrease, the cell of a residue holds the latest time of this residue and all
that was recorded at that time (`Latest`). So after something was recorded at time `t`, the window
is the total of what was recorded at the times `t - n + 1, …, t` (`windowSum_eq`): a cell as old as
`t - n` would not be taken for expired, but its residue is that of `t`, so it has been overwritten.
An unused cell holds time zero and counts nothing.

## Main definitions

* `SlidingWindow.Cell`, `SlidingWindow.record`, `SlidingWindow.windowSum`.
* `SlidingWindow.total` : the total of what was recorded at certain times.
* `SlidingWindow.Latest` : the cells hold the latest times of their residues.

## Main results

* `SlidingWindow.Latest.record` : recording at the latest time or later keeps the cells the latest.
* `SlidingWindow.windowSum_eq` : the window is exact.
* `SlidingWindow.sum_weight_record_le` : a bound that does not depend on the order of times.
-/

namespace SlidingWindow

/-- A time, and what is counted at it. -/
structure Cell (M : Type*) where
  stamp : ℤ
  count : M

variable {M : Type*} {n : ℕ} [NeZero n]

section Definitions

variable [AddCommMonoid M]

/-- An unused cell. -/
def Cell.unused : Cell M := ⟨0, 0⟩

/-- Record a value at a time. -/
def record (cells : Fin n → Cell M) (t : ℕ) (v : M) : Fin n → Cell M :=
  Function.update cells (Fin.ofNat n t) <|
    if (cells (Fin.ofNat n t)).stamp = t then ⟨t, (cells (Fin.ofNat n t)).count + v⟩ else ⟨t, v⟩

/-- The sum of the cells that are not expired at a time. -/
def windowSum (cells : Fin n → Cell M) (t : ℕ) : M :=
  ∑ i, if (cells i).stamp < t - n then 0 else (cells i).count

/-- The total of what was recorded at the times that satisfy `p`. -/
def total (p : ℕ → Prop) [DecidablePred p] (h : List (ℕ × M)) : M :=
  ((h.filter fun e => p e.1).map Prod.snd).sum

/-- Every cell is unused and nothing was recorded for its residue, or it holds the latest time of
its residue and the total of that time. -/
def Latest (cells : Fin n → Cell M) (h : List (ℕ × M)) : Prop :=
  ∀ i : Fin n, cells i = .unused ∧ (∀ e ∈ h, e.1 % n ≠ i) ∨
    ∃ e ∈ h, e.1 % n = i ∧ cells i = ⟨e.1, total (· = e.1) h⟩ ∧
      ∀ e' ∈ h, e'.1 % n = i → e'.1 ≤ e.1

end Definitions

/-! ### Totals -/

section Total

variable [AddCommMonoid M] {p q : ℕ → Prop} [DecidablePred p] [DecidablePred q]
  {h : List (ℕ × M)}

theorem total_cons (e : ℕ × M) : total p (e :: h) = (if p e.1 then e.2 else 0) + total p h := by
  by_cases he : p e.1 <;> simp [total, he]

theorem total_append (h' : List (ℕ × M)) : total p (h ++ h') = total p h + total p h' := by
  simp only [total, List.filter_append, List.map_append, List.sum_append]

theorem total_concat (t : ℕ) (v : M) :
    total p (h ++ [(t, v)]) = total p h + if p t then v else 0 := by
  rw [total_append, total_cons]
  simp [total]

theorem total_eq_zero (hp : ∀ e ∈ h, ¬ p e.1) : total p h = 0 := by
  rw [total, List.filter_eq_nil_iff.2 fun e he => by simpa using hp e he]
  rfl

theorem total_congr (hpq : ∀ e ∈ h, p e.1 ↔ q e.1) : total p h = total q h := by
  rw [total, total, List.filter_congr fun e he => decide_eq_decide.2 (hpq e he)]

/-- The total of values that are mapped by a homomorphism. -/
theorem total_map {N : Type*} [AddCommMonoid N] (f : M →+ N) (h : List (ℕ × M)) :
    total p (h.map fun e => (e.1, f e.2)) = f (total p h) := by
  induction h with
  | nil => exact f.map_zero.symm
  | cons e h ih =>
    rw [List.map_cons, total_cons, total_cons, ih, f.map_add]
    split_ifs
    · rfl
    · rw [f.map_zero]

/-- A total is the sum of the totals over the residues. -/
theorem sum_total (h : List (ℕ × M)) :
    ∑ i : Fin n, total (fun t => p t ∧ t % n = i) h = total p h := by
  induction h with
  | nil => exact Finset.sum_const_zero
  | cons e h ih =>
    have hpos : 0 < n := Nat.pos_of_neZero n
    -- Only the residue of `e` counts it.
    have hsingle : (∑ i : Fin n, if p e.1 ∧ e.1 % n = i then e.2 else 0) =
        if p e.1 then e.2 else 0 := by
      rw [Finset.sum_eq_single ⟨e.1 % n, Nat.mod_lt _ hpos⟩]
      · simp
      · intro i _ hne
        exact if_neg fun heq => hne (Fin.ext heq.2.symm)
      · simp
    simp only [total_cons, Finset.sum_add_distrib, ih, hsingle]

end Total

/-! ### Windows -/

section Window

variable [AddCommMonoid M] {cells : Fin n → Cell M} {h : List (ℕ × M)} {t : ℕ}

omit [NeZero n] in
theorem latest_unused : Latest (fun _ : Fin n => (Cell.unused : Cell M)) [] :=
  fun _ => .inl ⟨rfl, by simp⟩

/-- The cell of the time that is recorded. -/
theorem Latest.record_self (hcells : Latest cells h) (ht : ∀ e ∈ h, e.1 ≤ t) (v : M) :
    record cells t v (Fin.ofNat n t) = ⟨t, total (· = t) h + v⟩ := by
  rw [SlidingWindow.record, Function.update_self]
  rcases hcells (Fin.ofNat n t) with ⟨hunused, hnone⟩ | ⟨e, he, hres, hcell, hlatest⟩
  · have hzero : total (· = t) h = 0 := by
      refine total_eq_zero fun e he heq => hnone e he ?_
      rw [heq]
      rfl
    rw [hunused, hzero, zero_add]
    split_ifs
    · simp [Cell.unused]
    · rfl
  · rw [hcell]
    split_ifs with hstamp
    · have heq : e.1 = t := Int.ofNat_inj.1 hstamp
      simp only [heq]
    · -- What was recorded at `t` would be later than the latest of its residue.
      have hzero : total (· = t) h = 0 := by
        refine total_eq_zero fun e' he' heq => hstamp ?_
        have hle := hlatest e' he' (by rw [heq]; rfl)
        exact congrArg Int.ofNat (le_antisymm (ht e he) (heq ▸ hle))
      rw [hzero, zero_add]

/-- A value that is recorded at the latest time or later. -/
theorem Latest.record (hcells : Latest cells h) (ht : ∀ e ∈ h, e.1 ≤ t) (v : M) :
    Latest (record cells t v) (h ++ [(t, v)]) := by
  intro i
  have hmem {e : ℕ × M} (he : e ∈ h ++ [(t, v)]) : e ∈ h ∨ e = (t, v) := by
    simpa using he
  by_cases hi : i = Fin.ofNat n t
  · subst hi
    refine .inr ⟨(t, v), by simp, rfl, ?_, fun e he _ => ?_⟩
    · rw [hcells.record_self ht, total_concat, if_pos rfl]
    · rcases hmem he with he | rfl
      · exact ht e he
      · exact le_refl t
  · -- Any other cell is not touched.
    have hres : t % n ≠ i := fun heq => hi (Fin.ext heq.symm)
    rw [SlidingWindow.record, Function.update_of_ne hi]
    rcases hcells i with ⟨hunused, hnone⟩ | ⟨e, he, hres', hcell, hlatest⟩
    · refine .inl ⟨hunused, fun e he => ?_⟩
      rcases hmem he with he | rfl
      · exact hnone e he
      · exact hres
    · refine .inr ⟨e, List.mem_append_left _ he, hres', ?_, fun e' he' hei => ?_⟩
      · have hne : t ≠ e.1 := fun heq => hres (heq ▸ hres')
        rw [hcell, total_concat, if_neg hne, add_zero]
      · rcases hmem he' with he' | rfl
        · exact hlatest e' he' hei
        · exact absurd hei hres

/-- The window at the time at which something was just recorded is the total of the last `n`
times. -/
theorem windowSum_eq (hcells : Latest cells h) (ht : ∀ e ∈ h, e.1 ≤ t) (hlast : ∃ e ∈ h, e.1 = t) :
    windowSum cells t = total (t < · + n) h := by
  have hpos : 0 < n := Nat.pos_of_neZero n
  rw [← sum_total (n := n), windowSum]
  refine Finset.sum_congr rfl fun i _ => ?_
  rcases hcells i with ⟨hunused, hnone⟩ | ⟨e, he, hres, hcell, hlatest⟩
  · rw [hunused, total_eq_zero fun e he heq => hnone e he heq.2]
    simp [Cell.unused]
  · rw [hcell]
    have hle := ht e he
    by_cases hin : t < e.1 + n
    · -- The only time of this residue in the window is the latest.
      have hsame : total (fun s => t < s + n ∧ s % n = i) h = total (· = e.1) h := by
        refine total_congr fun e' he' => ⟨fun ⟨hin', hres'⟩ => ?_, fun heq => ?_⟩
        · have hle' := hlatest e' he' hres'
          have hmod : e'.1 ≡ e.1 [MOD n] := hres'.trans hres.symm
          have hdvd : n ∣ e.1 - e'.1 := (Nat.modEq_iff_dvd' hle').1 hmod
          have hsub : e.1 - e'.1 = 0 := Nat.eq_zero_of_dvd_of_lt hdvd (by omega)
          omega
        · exact heq ▸ ⟨hin, hres⟩
      rw [hsame, if_neg (by push_cast; omega)]
    · have hne : e.1 + n ≠ t := by
        -- Otherwise `t` would be a later time of this residue.
        intro heq
        obtain ⟨e', he', rfl⟩ := hlast
        have hres' : e'.1 % n = i := by rw [← heq, Nat.add_mod_right, hres]
        have hle' := hlatest e' he' hres'
        omega
      have hzero : total (fun s => t < s + n ∧ s % n = i) h = 0 := by
        refine total_eq_zero fun e' he' ⟨hin', hres'⟩ => ?_
        have hle' := hlatest e' he' hres'
        omega
      rw [hzero, if_pos (by push_cast; omega)]

end Window

/-! ### Weights -/

section Weight

variable [AddCommMonoid M] {w : M → ℕ} {cells : Fin n → Cell M}

omit [NeZero n] in
/-- A window weighs no more than the cells. -/
theorem weight_windowSum_le (hzero : w 0 = 0) (hadd : ∀ a b, w (a + b) ≤ w a + w b) (t : ℕ) :
    w (windowSum cells t) ≤ ∑ i, w (cells i).count := by
  refine (Finset.le_sum_of_subadditive w hzero.le hadd _ _).trans (Finset.sum_le_sum fun i _ => ?_)
  split_ifs
  · exact hzero.trans_le (Nat.zero_le _)
  · exact le_refl _

/-- Recording a value makes the cells heavier by the weight of the value at most, at any time. -/
theorem sum_weight_record_le (hadd : ∀ a b, w (a + b) ≤ w a + w b) (t : ℕ) (v : M) :
    ∑ i, w (record cells t v i).count ≤ ∑ i, w (cells i).count + w v := by
  have hself : w (record cells t v (Fin.ofNat n t)).count ≤
      w (cells (Fin.ofNat n t)).count + w v := by
    rw [SlidingWindow.record, Function.update_self]
    split_ifs
    · exact hadd _ _
    · exact Nat.le_add_left _ _
  have hother : ∑ i ∈ Finset.univ.erase (Fin.ofNat n t), w (record cells t v i).count =
      ∑ i ∈ Finset.univ.erase (Fin.ofNat n t), w (cells i).count := by
    refine Finset.sum_congr rfl fun i hi => ?_
    rw [SlidingWindow.record, Function.update_of_ne (Finset.ne_of_mem_erase hi)]
  rw [← Finset.add_sum_erase _ _ (Finset.mem_univ (Fin.ofNat n t)), hother,
    ← Finset.add_sum_erase _ (fun i => w (cells i).count) (Finset.mem_univ (Fin.ofNat n t))]
  omega

end Weight

end SlidingWindow
