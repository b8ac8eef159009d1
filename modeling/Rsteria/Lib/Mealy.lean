import Mathlib.Data.List.Induction

/-!
# Machines that answer every input

A machine is a function `f : σ → ι → ω × σ` that takes a state and an input to an output and the
next state. `outputs f s xs` lists the answers to the inputs `xs` from the state `s`, and
`final f s xs` is the state in which they leave the machine. Both are computed from the front of the
list, and the lemmas of this file take them apart at the end (`outputs_concat`, `final_concat`), at
a concatenation and at a position, so that a property of a run is proved by induction on the inputs
read so far. `forall_take_iff` says when a property holds in all states of a run, from what one
input does to it.

## Main definitions

* `Mealy.outputs`, `Mealy.final`.
* `Mealy.tally` : the number of steps of a run that satisfy a predicate.
* `Mealy.collect` : what is collected from the steps of a run.
* `Mealy.Follows` : a machine follows another one through a map of the states.

## Main results

* `Mealy.outputs_append`, `Mealy.final_append`, `Mealy.outputs_concat`, `Mealy.final_concat`.
* `Mealy.getElem?_outputs`, `Mealy.take_outputs` : the answer at a position, and those before it.
* `Mealy.final_induction`, `Mealy.final_take_of_le` : an invariant of the step is an invariant of
  the run, from any of its states on.
* `Mealy.forall_take_concat` : a property of all states of a run, one input longer.
* `Mealy.forall_take_iff` : when a property holds in all states of a run.
* `Mealy.final_eq_add_tally`, `Mealy.tally_le` : counting by a quantity that the steps change.
* `Mealy.tally_add_le` : counting against a credit that other steps pay in.
* `Mealy.exists_of_lt_countP` : when a measure is used up, some input has met its goal.
* `Mealy.exists_run_of_lt` : a run that ends where a measure cannot be lowered further.
* `Mealy.Follows.final_eq`, `Mealy.Follows.collect_eq` : the run that follows a run.
* `Mealy.collect_filter` : leaving out inputs that change nothing.
* `Mealy.exists_of_mem_collect` : the step that something was collected from.
-/

namespace Mealy

variable {σ ι ω : Type*} (f : σ → ι → ω × σ)

/-- The answers of the machine to a list of inputs. -/
def outputs : σ → List ι → List ω
  | _, [] => []
  | s, x :: xs => (f s x).1 :: outputs (f s x).2 xs

/-- The state of the machine after a list of inputs. -/
def final : σ → List ι → σ
  | s, [] => s
  | s, x :: xs => final (f s x).2 xs

@[simp] theorem outputs_nil (s : σ) : outputs f s [] = [] := rfl

@[simp] theorem final_nil (s : σ) : final f s [] = s := rfl

@[simp] theorem outputs_cons (s : σ) (x : ι) (xs : List ι) :
    outputs f s (x :: xs) = (f s x).1 :: outputs f (f s x).2 xs :=
  rfl

@[simp] theorem final_cons (s : σ) (x : ι) (xs : List ι) :
    final f s (x :: xs) = final f (f s x).2 xs :=
  rfl

@[simp] theorem length_outputs (s : σ) (xs : List ι) : (outputs f s xs).length = xs.length := by
  induction xs generalizing s with
  | nil => rfl
  | cons x xs ih => simp only [outputs_cons, List.length_cons, ih]

theorem final_append (s : σ) (xs ys : List ι) :
    final f s (xs ++ ys) = final f (final f s xs) ys := by
  induction xs generalizing s with
  | nil => rfl
  | cons x xs ih => exact ih _

theorem outputs_append (s : σ) (xs ys : List ι) :
    outputs f s (xs ++ ys) = outputs f s xs ++ outputs f (final f s xs) ys := by
  induction xs generalizing s with
  | nil => rfl
  | cons x xs ih => exact congrArg (List.cons _) (ih _)

theorem final_concat (s : σ) (xs : List ι) (x : ι) :
    final f s (xs ++ [x]) = (f (final f s xs) x).2 :=
  final_append f s xs [x]

theorem outputs_concat (s : σ) (xs : List ι) (x : ι) :
    outputs f s (xs ++ [x]) = outputs f s xs ++ [(f (final f s xs) x).1] :=
  outputs_append f s xs [x]

/-- The answer at position `t` is the answer to the input there, in the state after the inputs
before it. -/
theorem getElem?_outputs (s : σ) (xs : List ι) (t : ℕ) :
    (outputs f s xs)[t]? = xs[t]?.map fun x => (f (final f s (xs.take t)) x).1 := by
  induction xs generalizing s t with
  | nil => rfl
  | cons x xs ih =>
    cases t with
    | zero => rfl
    | succ t => exact ih _ t

theorem take_outputs (s : σ) (xs : List ι) (t : ℕ) :
    (outputs f s xs).take t = outputs f s (xs.take t) := by
  induction xs generalizing s t with
  | nil => simp
  | cons x xs ih =>
    cases t with
    | zero => rfl
    | succ t => exact congrArg (List.cons _) (ih _ t)

/-- An invariant of the step, on the inputs of a run, is an invariant of the run. -/
theorem final_induction {P : σ → Prop} {s : σ} {xs : List ι} (h₀ : P s)
    (hstep : ∀ s, ∀ x ∈ xs, P s → P (f s x).2) : P (final f s xs) := by
  induction xs generalizing s with
  | nil => exact h₀
  | cons x xs ih =>
    exact ih (hstep s x List.mem_cons_self h₀) fun s y hy =>
      hstep s y (List.mem_cons_of_mem x hy)

theorem final_take_succ {s : σ} {xs : List ι} {t : ℕ} {x : ι} (hx : xs[t]? = some x) :
    final f s (xs.take (t + 1)) = (f (final f s (xs.take t)) x).2 := by
  rw [List.take_add_one, hx, Option.toList_some, final_concat]

/-- A property that every step keeps holds from any state of a run on. -/
theorem final_take_of_le {P : σ → Prop} (hstep : ∀ s x, P s → P (f s x).2) {s : σ} {xs : List ι}
    {t t' : ℕ} (hle : t ≤ t') (hP : P (final f s (xs.take t))) : P (final f s (xs.take t')) := by
  obtain ⟨d, rfl⟩ := Nat.exists_eq_add_of_le hle
  rw [List.take_add, final_append]
  exact final_induction f hP fun s x _ => hstep s x

/-- A property holds in every state of a longer run if it does in every state of the shorter one and
after the last input. -/
theorem forall_take_concat {P : σ → Prop} {s : σ} {xs : List ι} {x : ι}
    (h : ∀ t, P (final f s (xs.take t))) (hx : P (f (final f s xs) x).2) (t : ℕ) :
    P (final f s ((xs ++ [x]).take t)) := by
  rcases Nat.lt_or_ge xs.length t with hlt | hle
  · rw [List.take_of_length_le (by simp only [List.length_append, List.length_singleton]; omega),
      final_concat]
    exact hx
  · rw [List.take_append_of_le_length hle]
    exact h t

/-- When a property `P` holds in every state of a run: if in every state with the invariant `I` and
the property, the next state has it exactly when the input is allowed, then it holds throughout
exactly when every input of the run is allowed. -/
theorem forall_take_iff {I P : σ → Prop} {allowed : σ → ι → Prop} {s : σ} (hI : I s) (hP : P s)
    (hinv : ∀ s x, I s → I (f s x).2)
    (hstep : ∀ s x, I s → P s → (P (f s x).2 ↔ allowed s x)) (xs : List ι) :
    (∀ t ≤ xs.length, P (final f s (xs.take t))) ↔
      ∀ t x, xs[t]? = some x → allowed (final f s (xs.take t)) x := by
  have hreach (t : ℕ) : I (final f s (xs.take t)) :=
    final_induction f hI fun s x _ => hinv s x
  constructor
  · intro h t x hx
    have hlt := (List.getElem?_eq_some_iff.1 hx).1
    have hnext := h (t + 1) hlt
    rw [final_take_succ f hx] at hnext
    exact (hstep _ x (hreach t) (h t (Nat.le_of_lt hlt))).1 hnext
  · intro h t ht
    induction t with
    | zero => exact hP
    | succ t ih =>
      have hx := List.getElem?_eq_getElem (Nat.lt_of_succ_le ht)
      rw [final_take_succ f hx]
      exact (hstep _ _ (hreach t) (ih (Nat.le_of_succ_le ht))).2 (h t _ hx)

/-! ### Counting the steps of a run -/

/-- The number of inputs of a run that satisfy `p` in the state in which they are read. -/
def tally (p : σ → ι → Bool) : σ → List ι → ℕ
  | _, [] => 0
  | s, x :: xs => (p s x).toNat + tally p (f s x).2 xs

/-- A quantity that every step raises by one exactly when it is counted. -/
theorem final_eq_add_tally {p : σ → ι → Bool} {φ : σ → ℕ}
    (hstep : ∀ s x, φ (f s x).2 = φ s + (p s x).toNat) (s : σ) (xs : List ι) :
    φ (final f s xs) = φ s + tally f p s xs := by
  induction xs generalizing s with
  | nil => rfl
  | cons x xs ih => rw [final_cons, ih, hstep, tally, Nat.add_assoc]

/-- A budget from which every counted step takes at least one. -/
theorem tally_le {p : σ → ι → Bool} {φ : σ → ℕ}
    (hstep : ∀ s x, φ (f s x).2 + (p s x).toNat ≤ φ s) (s : σ) (xs : List ι) :
    tally f p s xs ≤ φ s := by
  induction xs generalizing s with
  | nil => exact Nat.zero_le _
  | cons x xs ih =>
    have hx := hstep s x
    have hxs := ih (f s x).2
    rw [tally]
    omega

/-- If every input that `q` counts lowers the measure `φ` or meets the goal `G`, and no other input
raises it, then one of more inputs than the measure says meets the goal. -/
theorem exists_of_lt_countP {I : σ → Prop} {G : σ → ι → Prop} {q : ι → Bool} {φ : σ → ℕ} {s : σ}
    {xs : List ι} (hI : I s) (hinv : ∀ s, ∀ x ∈ xs, I s → I (f s x).2)
    (hmono : ∀ s, ∀ x ∈ xs, I s → φ (f s x).2 ≤ φ s)
    (hstep : ∀ s, ∀ x ∈ xs, I s → q x = true → G s x ∨ φ (f s x).2 < φ s)
    (hlt : φ s < xs.countP q) :
    ∃ t x, xs[t]? = some x ∧ q x = true ∧ G (final f s (xs.take t)) x := by
  induction xs generalizing s with
  | nil => simp at hlt
  | cons x xs ih =>
    have hle := hmono s x List.mem_cons_self hI
    have htail (h : φ (f s x).2 < xs.countP q) :
        ∃ t y, (x :: xs)[t]? = some y ∧ q y = true ∧ G (final f s ((x :: xs).take t)) y := by
      obtain ⟨t, y, hy, hq, hG⟩ := ih (hinv s x List.mem_cons_self hI)
        (fun s y hy => hinv s y (List.mem_cons_of_mem x hy))
        (fun s y hy => hmono s y (List.mem_cons_of_mem x hy))
        (fun s y hy => hstep s y (List.mem_cons_of_mem x hy)) h
      exact ⟨t + 1, y, hy, hq, hG⟩
    by_cases hq : q x = true
    · rw [List.countP_cons_of_pos hq] at hlt
      rcases hstep s x List.mem_cons_self hI hq with hG | hlower
      · exact ⟨0, x, rfl, hq, hG⟩
      · exact htail (by omega)
    · rw [List.countP_cons_of_neg hq] at hlt
      exact htail (by omega)

section Collect

variable {γ τ ω' : Type*}

/-- What `obs` yields at the steps of a run, in order. -/
def collect (obs : σ → ι → List γ) : σ → List ι → List γ
  | _, [] => []
  | s, x :: xs => obs s x ++ collect obs (f s x).2 xs

theorem collect_concat (obs : σ → ι → List γ) (s : σ) (xs : List ι) (x : ι) :
    collect f obs s (xs ++ [x]) = collect f obs s xs ++ obs (final f s xs) x := by
  induction xs generalizing s with
  | nil => exact List.append_nil _
  | cons y xs ih =>
    rw [List.cons_append, collect, ih, collect, List.append_assoc, final_cons]

/-- What is collected from a run comes from one of its steps. -/
theorem exists_of_mem_collect {obs : σ → ι → List γ} {s : σ} {xs : List ι} {y : γ}
    (h : y ∈ collect f obs s xs) :
    ∃ t x, xs[t]? = some x ∧ y ∈ obs (final f s (xs.take t)) x := by
  induction xs generalizing s with
  | nil => exact absurd h List.not_mem_nil
  | cons x xs ih =>
    rcases List.mem_append.1 h with hhead | htail
    · exact ⟨0, x, rfl, hhead⟩
    · obtain ⟨t, z, hz, hy⟩ := ih htail
      exact ⟨t + 1, z, hz, hy⟩

/-- A machine that follows another one through a map of the states, in the states with the invariant
`I`. -/
def Follows (g : τ → ι → ω' × τ) (π : σ → τ) (I : σ → Prop) : Prop :=
  ∀ s x, I s → π (f s x).2 = (g (π s) x).2

variable {f}

/-- The states that a run maps to are those of the run that follows it. -/
theorem Follows.final_eq {g : τ → ι → ω' × τ} {π : σ → τ} {I : σ → Prop} (h : Follows f g π I)
    {s : σ} {xs : List ι} (hI : ∀ t, I (final f s (xs.take t))) :
    π (final f s xs) = final g (π s) xs := by
  induction xs generalizing s with
  | nil => rfl
  | cons x xs ih => rw [final_cons, final_cons, ih fun t => hI (t + 1), h s x (hI 0)]

/-- What is collected from a run is collected from the run that follows it. -/
theorem Follows.collect_eq {g : τ → ι → ω' × τ} {π : σ → τ} {I : σ → Prop} (h : Follows f g π I)
    {obs : σ → ι → List γ} {obs' : τ → ι → List γ} (hobs : ∀ s x, I s → obs s x = obs' (π s) x)
    {s : σ} {xs : List ι} (hI : ∀ t, I (final f s (xs.take t))) :
    collect f obs s xs = collect g obs' (π s) xs := by
  induction xs generalizing s with
  | nil => rfl
  | cons x xs ih =>
    rw [collect, collect, ih fun t => hI (t + 1), h s x (hI 0), hobs s x (hI 0)]

/-- Inputs that change nothing, and from which nothing is collected, can be left out. -/
theorem collect_filter {obs : σ → ι → List γ} {p : ι → Bool}
    (hskip : ∀ s x, p x = false → (f s x).2 = s ∧ obs s x = []) (s : σ) (xs : List ι) :
    collect f obs s (xs.filter p) = collect f obs s xs := by
  induction xs generalizing s with
  | nil => rfl
  | cons x xs ih =>
    cases hx : p x with
    | true => rw [List.filter_cons_of_pos hx, collect, collect, ih]
    | false =>
      obtain ⟨hstate, hobs⟩ := hskip s x hx
      rw [List.filter_cons_of_neg (by simp [hx]), collect, hstate, hobs, List.nil_append, ih]

end Collect

end Mealy
