import Mathlib.Data.List.Basic
import Mathlib.Order.Lattice

/-!
# Slices and overwrites of a fixed-size buffer

A buffer is a list whose length is not changed by writing to it. `slice` reads the half-open range
`i..j`, and takes the proof that the range lies inside the buffer: a program that indexes a slice
out of range does not have a value here. `writeAt` copies a list over the positions that start at
an offset, and `writeChunks` copies lists to consecutive chunks. A sequence of writes at increasing
offsets, each starting where the last one ended, leaves the concatenation of what was written in
front of the untouched tail (`writeAt_append`).

## Main definitions

* `Buffer.slice`, `Buffer.slice?`, `Buffer.getFrom`, `Buffer.writeAt`, `Buffer.writeChunks`.

## Main results

* `Buffer.writeAt_append`: a write that starts where the written prefix ends.
* `Buffer.length_writeAt`, `Buffer.take_drop_writeAt`: what a write changes and what it returns.
* `Buffer.slice?_writeChunks`: every list is read back from its chunk.
-/

namespace Buffer

variable {α : Type*}

/-- The elements `i..j` of a buffer. -/
def slice (b : List α) (i j : ℕ) (_ : i ≤ j ∧ j ≤ b.length) : List α :=
  (b.take j).drop i

theorem slice_eq (b : List α) (i j : ℕ) (h : i ≤ j ∧ j ≤ b.length) :
    slice b i j h = (b.take j).drop i :=
  rfl

/-- The elements `i..j` of a buffer, or `none` when the range does not lie inside it. -/
def slice? (b : List α) (i j : ℕ) : Option (List α) :=
  if h : i ≤ j ∧ j ≤ b.length then some (slice b i j h) else none

theorem slice?_of_le {b : List α} {i j : ℕ} (h : i ≤ j ∧ j ≤ b.length) :
    slice? b i j = some ((b.take j).drop i) :=
  dif_pos h

/-- The elements from `i` on, or `none` when `i` lies past the end. -/
def getFrom (b : List α) (i : ℕ) : Option (List α) :=
  if i ≤ b.length then some (b.drop i) else none

/-- Copy `xs` over the positions `i, …, i + |xs| - 1`. -/
def writeAt (b : List α) (i : ℕ) (xs : List α) : List α :=
  b.take i ++ xs ++ b.drop (i + xs.length)

/-- A write that starts where the prefix `p` ends appends to the prefix. -/
theorem writeAt_append (p b xs : List α) :
    writeAt (p ++ b) p.length xs = (p ++ xs) ++ b.drop xs.length := by
  simp [writeAt, List.drop_append]

theorem length_writeAt {b : List α} {i : ℕ} {xs : List α} (h : i + xs.length ≤ b.length) :
    (writeAt b i xs).length = b.length := by
  simp only [writeAt, List.length_append, List.length_take, List.length_drop]
  omega

/-- Reading back the range that was written. -/
theorem take_drop_writeAt {b : List α} {i : ℕ} {xs : List α} (h : i ≤ b.length) :
    ((writeAt b i xs).drop i).take xs.length = xs := by
  have hi : (b.take i).length = i := by rw [List.length_take, min_eq_left h]
  rw [writeAt, List.append_assoc, List.drop_append_of_le_length hi.ge, List.drop_of_length_le hi.le]
  simp

/-- A write leaves everything before it alone. -/
theorem take_writeAt {b : List α} {i n : ℕ} (h : n ≤ i) (hi : i ≤ b.length) (xs : List α) :
    (writeAt b i xs).take n = b.take n := by
  rw [writeAt, List.append_assoc, List.take_append_of_le_length (by rw [List.length_take]; omega),
    List.take_take, min_eq_left h]

/-- Copy lists to the front of consecutive chunks of `c` elements, from chunk `k` on. -/
def writeChunks (c : ℕ) : ℕ → List (List α) → List α → List α
  | _, [], b => b
  | k, xs :: xss, b => writeChunks c (k + 1) xss (writeAt b (k * c) xs)

section Chunks

variable {c k : ℕ} {xss : List (List α)} {b : List α}

/-- The chunk that is written first lies in the buffer, and the others do so after the write. -/
private theorem writeChunks_bounds {xs : List α} (hxs : xs.length ≤ c)
    (h : (k + (xs :: xss).length) * c ≤ b.length) :
    k * c + xs.length ≤ b.length ∧
      (k + 1 + xss.length) * c ≤ (writeAt b (k * c) xs).length := by
  have hle : (k + 1 + xss.length) * c ≤ b.length := by
    rwa [List.length_cons, Nat.add_comm xss.length, ← Nat.add_assoc] at h
  have hroom : k * c + xs.length ≤ b.length := by
    rw [Nat.add_mul, Nat.succ_mul] at hle
    omega
  exact ⟨hroom, by rwa [length_writeAt hroom]⟩

theorem length_writeChunks (hxss : ∀ xs ∈ xss, xs.length ≤ c)
    (h : (k + xss.length) * c ≤ b.length) : (writeChunks c k xss b).length = b.length := by
  induction xss generalizing k b with
  | nil => rfl
  | cons xs xss ih =>
    obtain ⟨hroom, hrest⟩ := writeChunks_bounds (hxss xs List.mem_cons_self) h
    rw [writeChunks, ih (fun ys hys => hxss ys (List.mem_cons_of_mem xs hys)) hrest,
      length_writeAt hroom]

/-- Writing later chunks leaves the earlier ones alone. -/
theorem take_writeChunks (hxss : ∀ xs ∈ xss, xs.length ≤ c)
    (h : (k + xss.length) * c ≤ b.length) {n : ℕ} (hn : n ≤ k * c) :
    (writeChunks c k xss b).take n = b.take n := by
  induction xss generalizing k b with
  | nil => rfl
  | cons xs xss ih =>
    obtain ⟨hroom, hrest⟩ := writeChunks_bounds (hxss xs List.mem_cons_self) h
    have hn' : n ≤ (k + 1) * c := hn.trans (Nat.mul_le_mul_right c (Nat.le_succ k))
    rw [writeChunks, ih (fun ys hys => hxss ys (List.mem_cons_of_mem xs hys)) hrest hn',
      take_writeAt hn (by omega)]

/-- Every list is read back from its chunk. -/
theorem slice?_writeChunks (hxss : ∀ xs ∈ xss, xs.length ≤ c)
    (h : (k + xss.length) * c ≤ b.length) {j : ℕ} {xs : List α} (hxs : xss[j]? = some xs) :
    slice? (writeChunks c k xss b) ((k + j) * c) ((k + j) * c + xs.length) = some xs := by
  induction xss generalizing k b j with
  | nil => simp at hxs
  | cons ys xss ih =>
    have hys := hxss ys List.mem_cons_self
    have hrest' := fun zs hzs => hxss zs (List.mem_cons_of_mem ys hzs)
    obtain ⟨hroom, hrest⟩ := writeChunks_bounds hys h
    cases j with
    | zero =>
      obtain rfl : ys = xs := by simpa using hxs
      have htake := take_writeChunks hrest' hrest
        (by rw [Nat.succ_mul]; omega : k * c + ys.length ≤ (k + 1) * c)
      have hend : k * c + ys.length ≤ (writeChunks c k (ys :: xss) b).length := by
        rwa [length_writeChunks hxss h]
      rw [Nat.add_zero, slice?_of_le ⟨Nat.le_add_right _ _, hend⟩, writeChunks, htake,
        List.drop_take, Nat.add_sub_cancel_left, take_drop_writeAt (by omega)]
    | succ j =>
      have hnext := ih hrest' hrest (j := j) (by simpa using hxs)
      rw [Nat.add_assoc, Nat.add_comm 1 j] at hnext
      exact hnext

end Chunks

/-- Overwriting one position of two parallel buffers. -/
theorem zip_set {β : Type*} (as : List α) (bs : List β) (i : ℕ) (a : α) (b : β) :
    (as.set i a).zip (bs.set i b) = (as.zip bs).set i (a, b) := by
  induction as generalizing bs i with
  | nil => simp
  | cons a' as ih =>
    cases bs with
    | nil => simp
    | cons b' bs =>
      cases i with
      | zero => rfl
      | succ i => simp [ih]

end Buffer
