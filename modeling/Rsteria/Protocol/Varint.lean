import Rsteria.Lib.Buffer
import Mathlib.Data.List.Induction
import Mathlib.Tactic.IntervalCases
import Mathlib.Tactic.Ring

/-!
# QUIC variable-length integers

The four routines of `src/protocol.rs` for the integers of RFC 9000 §16. `putVarint` appends the
encoding of a value to a growing buffer, `putVarintSlice` writes it over the front of a buffer of
fixed size, `varintLen` is its length and `getVarint` decodes the front of a buffer. A value of type
`u64` is a `UInt64`, and the shifts and truncating casts are those of the source.

The two most significant bits of the first byte announce the width, and the remaining bits, read
big-endian, are the value. Every lemma about a value is proved through `UInt64.toNat`: the decoder
is `ofDigits256` on the digits of the value (`getVarint_cons`), and the two encoders write the same
digits (`putVarint_eq`, `putVarintSlice_eq`).

## Main definitions

* `Protocol.putVarint`, `Protocol.putVarintSlice`, `Protocol.varintLen`, `Protocol.getVarint`.
* `Protocol.varint` : the bytes that the two encoders write.
* `Protocol.VarintEncodes` : the encodings of a value, of any width.

## Main results

* `Protocol.getVarint_varint` : decoding an encoding, followed by anything, returns the value and
  the length of the encoding.
* `Protocol.getVarint_append` : a decoded value does not depend on what follows it.
* `Protocol.getVarint_bounds` : the width and the range of a decoded value.
* `Protocol.getVarint_eq_some_iff` : the decoder reads exactly the encodings.
* `Protocol.VarintEncodes.eq_varint_iff` : the encoders write the shortest encoding.
* `Protocol.injOn_varint_iff` : how far up the encoding is injective.
-/

namespace Rsteria.Protocol

open Buffer

/-- A `Vec<u8>`, a `Bytes` or a byte slice. -/
abbrev Bytes := List UInt8

/-- Append a QUIC varint to `buf`. -/
def putVarint (buf : Bytes) (v : UInt64) : Bytes :=
  if v ≤ 63 then
    buf ++ [v.toUInt8]
  else if v ≤ 16383 then
    buf ++ [(v >>> 8).toUInt8 ||| 0x40, v.toUInt8]
  else if v ≤ 1073741823 then
    buf ++ [(v >>> 24).toUInt8 ||| 0x80, (v >>> 16).toUInt8, (v >>> 8).toUInt8, v.toUInt8]
  else
    buf ++ [(v >>> 56).toUInt8 ||| 0xc0, (v >>> 48).toUInt8, (v >>> 40).toUInt8,
      (v >>> 32).toUInt8, (v >>> 24).toUInt8, (v >>> 16).toUInt8, (v >>> 8).toUInt8, v.toUInt8]

/-- Decode a QUIC varint from the front of `buf`, with the number of bytes it takes; `none` when
`buf` is too short. -/
def getVarint (buf : Bytes) : Option (UInt64 × ℕ) :=
  match buf with
  | [] => none
  | first :: rest =>
    let len := 1 <<< (first >>> 6).toNat
    if h : (first :: rest).length < len then
      none
    else
      let tail := slice (first :: rest) 1 len
        ⟨Nat.one_le_two_pow.trans_eq (Nat.one_shiftLeft _).symm, not_lt.1 h⟩
      some (tail.foldl (fun val b => (val <<< 8) ||| b.toUInt64) (first &&& 0x3f).toUInt64, len)

/-- Byte length of a QUIC varint encoding `v`. -/
def varintLen (v : UInt64) : ℕ :=
  if v ≤ 63 then 1
  else if v ≤ 16383 then 2
  else if v ≤ 1073741823 then 4
  else 8

/-- Write a varint into the front of `buf`, with the number of bytes written. The caller makes
`buf` long enough. -/
def putVarintSlice (buf : Bytes) (v : UInt64) : ℕ × Bytes :=
  if v ≤ 63 then
    (1, buf.set 0 v.toUInt8)
  else if v ≤ 16383 then
    (2, (buf.set 0 ((v >>> 8).toUInt8 ||| 0x40)).set 1 v.toUInt8)
  else if v ≤ 1073741823 then
    (4, (((buf.set 0 ((v >>> 24).toUInt8 ||| 0x80)).set 1 (v >>> 16).toUInt8).set 2
      (v >>> 8).toUInt8).set 3 v.toUInt8)
  else
    (8, (((((((buf.set 0 ((v >>> 56).toUInt8 ||| 0xc0)).set 1 (v >>> 48).toUInt8).set 2
      (v >>> 40).toUInt8).set 3 (v >>> 32).toUInt8).set 4 (v >>> 24).toUInt8).set 5
      (v >>> 16).toUInt8).set 6 (v >>> 8).toUInt8).set 7 v.toUInt8)

/-! ### The bytes of an encoding -/

/-- The bytes that encode `v`. -/
def varint (v : UInt64) : Bytes := putVarint [] v

theorem putVarint_eq (buf : Bytes) (v : UInt64) : putVarint buf v = buf ++ varint v := by
  unfold varint putVarint
  split_ifs <;> rfl

@[simp] theorem length_varint (v : UInt64) : (varint v).length = varintLen v := by
  unfold varint putVarint varintLen
  split_ifs <;> rfl

/-- Writing over the front of a long enough buffer leaves the encoding and the old tail. -/
theorem putVarintSlice_eq (buf : Bytes) (v : UInt64) (h : varintLen v ≤ buf.length) :
    putVarintSlice buf v = (varintLen v, varint v ++ buf.drop (varintLen v)) := by
  unfold varintLen at h
  unfold putVarintSlice varint putVarint varintLen
  split_ifs at h ⊢
  · obtain ⟨a, t, rfl⟩ := List.exists_cons_of_length_pos h
    rfl
  · match buf, h with
    | _ :: _ :: t, _ => rfl
  · match buf, h with
    | _ :: _ :: _ :: _ :: t, _ => rfl
  · match buf, h with
    | _ :: _ :: _ :: _ :: _ :: _ :: _ :: _ :: t, _ => rfl

/-! ### Big-endian digits -/

/-- The number with the big-endian base-256 digits `bs` after the leading part `a`. -/
def ofDigits256 (a : ℕ) (bs : Bytes) : ℕ := bs.foldl (fun val b => val * 256 + b.toNat) a

theorem ofDigits256_lt {a k : ℕ} (bs : Bytes) (h : a < k) :
    ofDigits256 a bs < k * 256 ^ bs.length := by
  induction bs generalizing a k with
  | nil => simpa [ofDigits256] using h
  | cons b bs ih =>
    have hb : a * 256 + b.toNat < k * 256 := by have := b.toNat_lt; omega
    calc ofDigits256 a (b :: bs) < k * 256 * 256 ^ bs.length := ih hb
      _ = k * 256 ^ (b :: bs).length := by rw [List.length_cons, pow_succ]; ring

theorem ofDigits256_concat (a : ℕ) (bs : Bytes) (b : UInt8) :
    ofDigits256 a (bs ++ [b]) = ofDigits256 a bs * 256 + b.toNat := by
  rw [ofDigits256, List.foldl_append]
  rfl

/-- The digits of a number are determined by it and their number. -/
theorem ofDigits256_inj {a a' : ℕ} {bs bs' : Bytes} (hlen : bs.length = bs'.length)
    (h : ofDigits256 a bs = ofDigits256 a' bs') : a = a' ∧ bs = bs' := by
  induction bs using List.reverseRecOn generalizing bs' with
  | nil =>
    obtain rfl : bs' = [] := List.length_eq_zero_iff.1 hlen.symm
    exact ⟨h, rfl⟩
  | append_singleton bs b ih =>
    induction bs' using List.reverseRecOn with
    | nil => simp at hlen
    | append_singleton bs' b' _ =>
      simp only [List.length_append, List.length_singleton, Nat.add_right_cancel_iff] at hlen
      rw [ofDigits256_concat, ofDigits256_concat] at h
      have hb := b.toNat_lt
      have hb' := b'.toNat_lt
      obtain ⟨ha, hbs⟩ := ih hlen (by omega)
      obtain rfl : b = b' := UInt8.toNat_inj.1 (by omega)
      exact ⟨ha, by rw [hbs]⟩

/-- The shift-and-or loop of the decoder computes the digits as long as it does not reach bit 62. -/
theorem toNat_foldl_shift {a : UInt64} {bs : Bytes} (h : a.toNat < 64) (hlen : bs.length ≤ 7) :
    (bs.foldl (fun (val : UInt64) b => (val <<< 8) ||| b.toUInt64) a).toNat =
      ofDigits256 a.toNat bs := by
  induction bs using List.reverseRecOn with
  | nil => rfl
  | append_singleton bs b ih =>
    simp only [List.length_append, List.length_singleton] at hlen
    have hlt : ofDigits256 a.toNat bs < 64 * 256 ^ 6 :=
      (ofDigits256_lt bs h).trans_le
        (Nat.mul_le_mul_left 64 (Nat.pow_le_pow_right (by omega) (by omega)))
    rw [List.foldl_append, ofDigits256, List.foldl_append]
    simp only [List.foldl_cons, List.foldl_nil, UInt64.toNat_or, UInt64.toNat_shiftLeft,
      UInt8.toNat_toUInt64]
    rw [ih (by omega)]
    have h8 : (8 : UInt64).toNat % 64 = 8 := rfl
    rw [h8, Nat.shiftLeft_eq, Nat.mod_eq_of_lt (by omega), ← Nat.shiftLeft_eq,
      ← Nat.shiftLeft_add_eq_or_of_lt b.toNat_lt, Nat.shiftLeft_eq]
    rfl

/-! ### The width tag of the first byte -/

/-- The width of a varint whose first byte is `first`. -/
def varintWidth (first : UInt8) : ℕ := 1 <<< (first >>> 6).toNat

theorem toNat_shiftRight_six (first : UInt8) : (first >>> 6).toNat = first.toNat / 64 := by
  rw [UInt8.toNat_shiftRight, show (6 : UInt8).toNat % 8 = 6 from rfl, Nat.shiftRight_eq_div_pow]

theorem toNat_and_payload (first : UInt8) :
    (first &&& 0x3f).toUInt64.toNat = first.toNat % 64 := by
  rw [UInt8.toNat_toUInt64, UInt8.toNat_and]
  exact Nat.and_two_pow_sub_one_eq_mod first.toNat 6

theorem varintWidth_eq (first : UInt8) : varintWidth first = 2 ^ (first.toNat / 64) := by
  rw [varintWidth, toNat_shiftRight_six, Nat.one_shiftLeft]

theorem varintWidth_cases (first : UInt8) :
    varintWidth first = 1 ∨ varintWidth first = 2 ∨ varintWidth first = 4 ∨
      varintWidth first = 8 := by
  have h : (first >>> 6).toNat < 4 := by
    have := first.toNat_lt
    rw [toNat_shiftRight_six]
    omega
  unfold varintWidth
  interval_cases (first >>> 6).toNat <;> simp

theorem varintWidth_pos (first : UInt8) : 0 < varintWidth first := by
  rcases varintWidth_cases first with h | h | h | h <;> omega

/-- Setting the tag bits of a byte below 64 adds the tag. -/
theorem toNat_or_tag {x tag : UInt8} {t : ℕ} (htag : tag.toNat = t <<< 6) (h : x.toNat < 64) :
    (x ||| tag).toNat = t * 64 + x.toNat := by
  rw [UInt8.toNat_or, htag, Nat.or_comm, ← Nat.shiftLeft_add_eq_or_of_lt (by omega),
    Nat.shiftLeft_eq]

/-! ### Decoding -/

/-- The decoder, as the digits of the announced width. -/
theorem getVarint_cons (first : UInt8) (rest : Bytes) :
    getVarint (first :: rest) =
      if rest.length + 1 < varintWidth first then none
      else some ((rest.take (varintWidth first - 1)).foldl
        (fun (val : UInt64) b => (val <<< 8) ||| b.toUInt64) (first &&& 0x3f).toUInt64,
        varintWidth first) := by
  obtain ⟨w, hw⟩ := Nat.exists_eq_add_of_lt (varintWidth_pos first)
  rw [Nat.zero_add] at hw
  simp only [getVarint, slice_eq, List.length_cons]
  rw [hw]
  change (1 <<< (first >>> 6).toNat) = w + 1 at hw
  simp only [hw, List.take_succ_cons, List.drop_one, List.tail_cons, Nat.add_sub_cancel]
  split_ifs <;> rfl

/-- What a successful decoding of `first :: rest` returns. -/
theorem getVarint_cons_eq_some {first : UInt8} {rest : Bytes} {v : UInt64} {n : ℕ} :
    getVarint (first :: rest) = some (v, n) ↔
      n = varintWidth first ∧ n ≤ rest.length + 1 ∧
        v.toNat = ofDigits256 (first.toNat % 64) (rest.take (n - 1)) := by
  have hfold : ∀ k ≤ 8, ((rest.take (k - 1)).foldl
      (fun (val : UInt64) b => (val <<< 8) ||| b.toUInt64) (first &&& 0x3f).toUInt64).toNat =
        ofDigits256 (first.toNat % 64) (rest.take (k - 1)) := fun k hk => by
    rw [toNat_foldl_shift _ (by rw [List.length_take]; omega), toNat_and_payload]
    rw [toNat_and_payload]
    omega
  have hw : varintWidth first ≤ 8 := by
    rcases varintWidth_cases first with h | h | h | h <;> omega
  rw [getVarint_cons]
  split_ifs with hshort
  · simp only [false_iff]
    rintro ⟨rfl, h, -⟩
    omega
  · simp only [Option.some.injEq, Prod.mk.injEq]
    constructor
    · rintro ⟨rfl, rfl⟩
      exact ⟨rfl, by omega, hfold _ hw⟩
    · rintro ⟨rfl, -, hv⟩
      exact ⟨UInt64.toNat_inj.1 (by rw [hfold _ hw, hv]), rfl⟩

theorem getVarint_eq_none_iff {b : Bytes} :
    getVarint b = none ↔ ∀ first rest, b = first :: rest → b.length < varintWidth first := by
  cases b with
  | nil => simp [getVarint]
  | cons first rest =>
    rw [getVarint_cons]
    split_ifs with h <;> simp_all

/-- The width and the range of a decoded value. -/
theorem getVarint_bounds {b : Bytes} {v : UInt64} {n : ℕ} (h : getVarint b = some (v, n)) :
    (n = 1 ∨ n = 2 ∨ n = 4 ∨ n = 8) ∧ n ≤ b.length ∧ v.toNat < 2 ^ 62 := by
  cases b with
  | nil => simp [getVarint] at h
  | cons first rest =>
    obtain ⟨rfl, hn, hv⟩ := getVarint_cons_eq_some.1 h
    refine ⟨varintWidth_cases first, hn, ?_⟩
    have hlt := ofDigits256_lt (k := 64) (rest.take (varintWidth first - 1))
      (Nat.mod_lt first.toNat (by omega))
    have hlen : (rest.take (varintWidth first - 1)).length ≤ 7 := by
      rw [List.length_take]
      rcases varintWidth_cases first with h | h | h | h <;> omega
    calc v.toNat < 64 * 256 ^ (rest.take (varintWidth first - 1)).length := hv ▸ hlt
      _ ≤ 64 * 256 ^ 7 := Nat.mul_le_mul_left 64 (Nat.pow_le_pow_right (by omega) hlen)
      _ = 2 ^ 62 := by norm_num

theorem getVarint_pos {b : Bytes} {v : UInt64} {n : ℕ} (h : getVarint b = some (v, n)) :
    0 < n := by
  rcases (getVarint_bounds h).1 with h | h | h | h <;> omega

/-- A decoded value does not depend on what follows it. -/
theorem getVarint_append {b : Bytes} {v : UInt64} {n : ℕ} (h : getVarint b = some (v, n))
    (e : Bytes) : getVarint (b ++ e) = some (v, n) := by
  cases b with
  | nil => simp [getVarint] at h
  | cons first rest =>
    obtain ⟨hw, hn, hv⟩ := getVarint_cons_eq_some.1 h
    rw [List.cons_append, getVarint_cons_eq_some]
    refine ⟨hw, by rw [List.length_append]; omega, ?_⟩
    rw [hv, List.take_append_of_le_length (by omega)]

/-- A decoding reads nothing past the bytes it consumes. -/
theorem getVarint_take {b : Bytes} {v : UInt64} {n : ℕ} (h : getVarint b = some (v, n)) :
    getVarint (b.take n) = some (v, n) := by
  cases b with
  | nil => simp [getVarint] at h
  | cons first rest =>
    obtain ⟨hw, hn, hv⟩ := getVarint_cons_eq_some.1 h
    obtain ⟨k, rfl⟩ := Nat.exists_eq_add_of_lt (getVarint_pos h)
    rw [List.take_succ_cons, getVarint_cons_eq_some]
    refine ⟨hw, by rw [List.length_take]; omega, ?_⟩
    rw [hv, List.take_take]
    congr 2
    omega

/-! ### Decoding an encoding -/

theorem toNat_shiftRight_toUInt8 (v : UInt64) {k : UInt64} (hk : k.toNat < 64) :
    (v >>> k).toUInt8.toNat = v.toNat / 2 ^ k.toNat % 256 := by
  rw [UInt64.toNat_toUInt8, UInt64.toNat_shiftRight, Nat.mod_eq_of_lt hk,
    Nat.shiftRight_eq_div_pow]

/-- Decoding the tagged digits of a value. -/
private theorem getVarint_tagged {v : UInt64} {x tag : UInt8} (t : ℕ) (ds : Bytes)
    (htag : tag.toNat = t <<< 6) (hx : x.toNat < 64) (hds : ds.length + 1 = 1 <<< t)
    (hv : v.toNat = ofDigits256 x.toNat ds) (rest : Bytes) :
    getVarint ((x ||| tag) :: (ds ++ rest)) = some (v, ds.length + 1) := by
  have hor := toNat_or_tag htag hx
  have hw : varintWidth (x ||| tag) = ds.length + 1 := by
    rw [varintWidth, toNat_shiftRight_six, hor, hds]
    congr 1
    omega
  rw [getVarint_cons_eq_some]
  refine ⟨hw.symm, by rw [List.length_append]; omega, ?_⟩
  rw [Nat.add_sub_cancel, List.take_left, hv, hor, Nat.mul_add_mod', Nat.mod_eq_of_lt hx]

/-- The widest tag overwrites the two most significant bits. -/
private theorem or_widest_tag (x : UInt8) : x ||| 0xc0 = (x &&& 0x3f) ||| 0xc0 := by
  have hlt : x.toNat ||| 192 < 2 ^ 8 := Nat.or_lt_two_pow x.toNat_lt (by decide)
  apply UInt8.toNat_inj.1
  simp only [UInt8.toNat_or, UInt8.toNat_and, UInt8.reduceToNat]
  rw [Nat.or_and_distrib_right]
  change _ = (x.toNat ||| 192) &&& (2 ^ 8 - 1)
  rw [Nat.and_two_pow_sub_one_eq_mod, Nat.mod_eq_of_lt hlt]

/-- Decoding an encoding, whatever follows it, returns the value without its two most significant
bits and the encoding's length. -/
theorem getVarint_varint_mod (v : UInt64) (rest : Bytes) :
    getVarint (varint v ++ rest) = some (.ofNat (v.toNat % 2 ^ 62), varintLen v) := by
  have hmod : (UInt64.ofNat (v.toNat % 2 ^ 62)).toNat = v.toNat % 2 ^ 62 := by
    rw [UInt64.toNat_ofNat']
    omega
  have hdigit (k : UInt64) (hk : k.toNat < 64) := toNat_shiftRight_toUInt8 v hk
  have h8 := hdigit 8 (by decide)
  have h16 := hdigit 16 (by decide)
  have h24 := hdigit 24 (by decide)
  have h0 := UInt64.toNat_toUInt8 v
  simp only [UInt64.reduceToNat] at h8 h16 h24
  unfold varint putVarint varintLen
  simp only [UInt64.le_iff_toNat_le, UInt64.reduceToNat]
  split_ifs with h1 h2 h3
  · have h : getVarint ((v.toUInt8 ||| 0) :: ([] ++ rest)) = some (.ofNat (v.toNat % 2 ^ 62), 1) :=
      getVarint_tagged 0 [] rfl (by omega) rfl
        (by simp only [ofDigits256, List.foldl_nil]; omega) rest
    simpa using h
  · exact getVarint_tagged 1 [v.toUInt8] rfl (by omega) rfl
      (by simp only [ofDigits256, List.foldl_cons, List.foldl_nil]; omega) rest
  · exact getVarint_tagged 2 [(v >>> 16).toUInt8, (v >>> 8).toUInt8, v.toUInt8]
      rfl (by omega) rfl
      (by simp only [ofDigits256, List.foldl_cons, List.foldl_nil]; omega) rest
  · have h32 := hdigit 32 (by decide)
    have h40 := hdigit 40 (by decide)
    have h48 := hdigit 48 (by decide)
    have h56 : ((v >>> 56).toUInt8 &&& 0x3f).toNat = v.toNat / 2 ^ 56 % 64 := by
      rw [← UInt8.toNat_toUInt64, toNat_and_payload, hdigit 56 (by decide)]
      exact Nat.mod_mod_of_dvd _ (by decide)
    simp only [UInt64.reduceToNat] at h32 h40 h48
    rw [or_widest_tag]
    exact getVarint_tagged 3 [(v >>> 48).toUInt8, (v >>> 40).toUInt8,
      (v >>> 32).toUInt8, (v >>> 24).toUInt8, (v >>> 16).toUInt8, (v >>> 8).toUInt8, v.toUInt8]
      rfl (by omega) rfl
      (by simp only [ofDigits256, List.foldl_cons, List.foldl_nil]; omega) rest

/-- Decoding an encoding, whatever follows it, returns the value and the encoding's length. -/
theorem getVarint_varint {v : UInt64} (hv : v.toNat < 2 ^ 62) (rest : Bytes) :
    getVarint (varint v ++ rest) = some (v, varintLen v) := by
  rw [getVarint_varint_mod, Nat.mod_eq_of_lt hv, UInt64.ofNat_toNat]

/-! ### Encodings of any width -/

/-- The bytes `V` are one of the encodings of `v`, of 1, 2, 4 or 8 bytes: the two most significant
bits of the first byte announce the width, and the other bits are the big-endian value. -/
def VarintEncodes (V : Bytes) (v : ℕ) : Prop :=
  ∃ first rest, V = first :: rest ∧ V.length = 2 ^ (first.toNat / 64) ∧
    v = ofDigits256 (first.toNat % 64) rest

/-- The decoder reads exactly the encodings. -/
theorem getVarint_eq_some_iff {b : Bytes} {v : UInt64} {n : ℕ} :
    getVarint b = some (v, n) ↔
      ∃ V rest, b = V ++ rest ∧ V.length = n ∧ VarintEncodes V v.toNat := by
  constructor
  · intro h
    cases b with
    | nil => simp [getVarint] at h
    | cons first rest =>
      obtain ⟨hn, hle, hv⟩ := getVarint_cons_eq_some.1 h
      have hpos := getVarint_pos h
      have hlen : (first :: rest.take (n - 1)).length = n := by
        rw [List.length_cons, List.length_take]
        omega
      refine ⟨first :: rest.take (n - 1), rest.drop (n - 1), ?_, hlen, first, _, rfl, ?_, hv⟩
      · rw [List.cons_append, List.take_append_drop]
      · rw [hlen, hn, varintWidth_eq]
  · rintro ⟨V, rest, rfl, rfl, first, ds, rfl, hw, hv⟩
    rw [List.cons_append, getVarint_cons_eq_some]
    refine ⟨hw.trans (varintWidth_eq first).symm, by simp, ?_⟩
    rw [List.length_cons, Nat.add_sub_cancel, List.take_left, hv]

variable {V V' : Bytes} {v : ℕ}

/-- Encodings of one value that are equally long are the same. -/
theorem VarintEncodes.eq_of_length (h : VarintEncodes V v) (h' : VarintEncodes V' v)
    (hlen : V.length = V'.length) : V = V' := by
  obtain ⟨first, rest, rfl, hw, hv⟩ := h
  obtain ⟨first', rest', rfl, hw', hv'⟩ := h'
  have htag : first.toNat / 64 = first'.toNat / 64 :=
    Nat.pow_right_injective le_rfl (hw.symm.trans (hlen.trans hw'))
  obtain ⟨hmod, hrest⟩ := ofDigits256_inj (Nat.succ.inj hlen) (hv.symm.trans hv')
  obtain rfl : first = first' := UInt8.toNat_inj.1 (by omega)
  rw [hrest]

/-- The value of an encoding fits into the bits behind the tag. -/
theorem VarintEncodes.bounds (h : VarintEncodes V v) :
    (V.length = 1 ∧ v < 2 ^ 6) ∨ (V.length = 2 ∧ v < 2 ^ 14) ∨ (V.length = 4 ∧ v < 2 ^ 30) ∨
      (V.length = 8 ∧ v < 2 ^ 62) := by
  obtain ⟨first, rest, rfl, hw, rfl⟩ := h
  have hlt := ofDigits256_lt (k := 64) rest (Nat.mod_lt first.toNat (by omega))
  rw [List.length_cons] at hw ⊢
  have htag : first.toNat / 64 < 4 := by have := first.toNat_lt; omega
  interval_cases first.toNat / 64 <;> simp only [Nat.reducePow] at hw
  all_goals
    have hrest := Nat.succ.inj hw
    rw [hrest] at hlt
    omega

theorem VarintEncodes.lt (h : VarintEncodes V v) : v < 2 ^ 62 := by
  rcases h.bounds with h | h | h | h <;> omega

theorem VarintEncodes.toNat_ofNat (h : VarintEncodes V v) :
    (UInt64.ofNat v).toNat = v := by
  have hlt := h.lt
  rw [UInt64.toNat_ofNat']
  omega

/-- Reading an encoding at the front of a buffer. -/
theorem VarintEncodes.getVarint_append (h : VarintEncodes V v) (rest : Bytes) :
    getVarint (V ++ rest) = some (.ofNat v, V.length) :=
  getVarint_eq_some_iff.2 ⟨V, rest, rfl, rfl, h.toNat_ofNat.symm ▸ h⟩

/-- The encoders write an encoding of the value without its two most significant bits. -/
theorem varintEncodes_varint_mod (v : UInt64) :
    VarintEncodes (varint v) (v.toNat % 2 ^ 62) := by
  obtain ⟨V, rest, hV, hlen, henc⟩ := getVarint_eq_some_iff.1 (getVarint_varint_mod v [])
  rw [List.append_nil] at hV
  obtain rfl : rest = [] := by
    have hlength := congrArg List.length hV
    rw [List.length_append, length_varint, hlen] at hlength
    exact List.length_eq_zero_iff.1 (by omega)
  have hmod : (UInt64.ofNat (v.toNat % 2 ^ 62)).toNat = v.toNat % 2 ^ 62 := by
    rw [UInt64.toNat_ofNat']
    omega
  rw [hV, List.append_nil, ← hmod]
  exact henc

/-- The encoders write an encoding. -/
theorem varintEncodes_varint {v : UInt64} (hv : v.toNat < 2 ^ 62) :
    VarintEncodes (varint v) v.toNat := by
  have henc := varintEncodes_varint_mod v
  rwa [Nat.mod_eq_of_lt hv] at henc

/-- No encoding is shorter than that of the encoders. -/
theorem VarintEncodes.varintLen_le {v : UInt64} (h : VarintEncodes V v.toNat) :
    varintLen v ≤ V.length := by
  have hbounds := h.bounds
  unfold varintLen
  simp only [UInt64.le_iff_toNat_le, UInt64.reduceToNat]
  split_ifs <;> omega

/-- An encoding is that of the encoders exactly when no encoding of the value is shorter. -/
theorem VarintEncodes.eq_varint_iff {v : UInt64} (h : VarintEncodes V v.toNat) :
    V = varint v ↔ ∀ V', VarintEncodes V' v.toNat → V.length ≤ V'.length := by
  have hvarint := varintEncodes_varint h.lt
  constructor
  · rintro rfl V' hV'
    rw [length_varint]
    exact hV'.varintLen_le
  · intro hmin
    have hle := hmin _ hvarint
    have hge := h.varintLen_le
    exact h.eq_of_length hvarint (by rw [length_varint] at hle ⊢; omega)

/-! ### The four routines together -/

/-- The width of an encoding is the smallest one that holds the value behind the tag. -/
theorem isLeast_varintLen {v : UInt64} (hv : v.toNat < 2 ^ 62) :
    IsLeast {w | w ∈ [1, 2, 4, 8] ∧ v.toNat < 2 ^ (8 * w - 2)} (varintLen v) := by
  unfold varintLen
  simp only [UInt64.le_iff_toNat_le, UInt64.reduceToNat]
  refine ⟨?_, ?_⟩
  · split_ifs <;> refine ⟨by decide, ?_⟩ <;> omega
  · rintro w ⟨hw, hlt⟩
    simp only [List.mem_cons, List.not_mem_nil, or_false] at hw
    rcases hw with rfl | rfl | rfl | rfl <;> split_ifs <;> omega

/-- Both writers write `w` bytes for `v`, and the same ones: `putVarint` appends what
`putVarintSlice` puts at the front of any slot with room for it, leaving the rest of the slot. -/
def WritersAgree (v : UInt64) (w : ℕ) : Prop :=
  ∀ buf slot : Bytes, w ≤ slot.length →
    (putVarintSlice slot v).1 = w ∧
      putVarint buf v = buf ++ (putVarintSlice slot v).2.take w ∧
      (putVarint buf v).length = buf.length + w ∧
      (putVarintSlice slot v).2.drop w = slot.drop w

theorem writersAgree_varintLen (v : UInt64) : WritersAgree v (varintLen v) := by
  intro buf slot hslot
  have hlen := length_varint v
  rw [putVarintSlice_eq slot v hslot, putVarint_eq, List.take_left' hlen, List.drop_left' hlen,
    List.length_append, hlen]
  exact ⟨rfl, rfl, rfl, rfl⟩

/-- The outcome of a decoding depends only on the bytes it consumes. -/
theorem getVarint_congr {b b' : Bytes} {v : UInt64} {n : ℕ} (h : getVarint b = some (v, n))
    (hb : b'.take n = b.take n) : getVarint b' = some (v, n) := by
  rw [← List.take_append_drop n b', hb]
  exact getVarint_append (getVarint_take h) _

theorem varintLen_le_of_getVarint {b : Bytes} {v : UInt64} {n : ℕ}
    (h : getVarint b = some (v, n)) : varintLen v ≤ n := by
  obtain ⟨V, rest, rfl, rfl, hV⟩ := getVarint_eq_some_iff.1 h
  exact hV.varintLen_le

theorem varintLen_eq_eight {v : UInt64} : varintLen v = 8 ↔ 2 ^ 30 ≤ v.toNat := by
  unfold varintLen
  simp only [UInt64.le_iff_toNat_le, UInt64.reduceToNat]
  split_ifs <;> omega

/-- Two values have the same encoding when it has the same width and the values agree but for
their two most significant bits. -/
theorem varint_eq_varint_iff {v v' : UInt64} :
    varint v = varint v' ↔
      varintLen v = varintLen v' ∧ v.toNat % 2 ^ 62 = v'.toNat % 2 ^ 62 := by
  have henc := varintEncodes_varint_mod v
  have henc' := varintEncodes_varint_mod v'
  constructor
  · intro h
    refine ⟨by rw [← length_varint, h, length_varint], ?_⟩
    rw [h] at henc
    have hdec := (henc.getVarint_append []).symm.trans (henc'.getVarint_append [])
    have hval := congrArg UInt64.toNat (Prod.ext_iff.1 (Option.some.inj hdec)).1
    rwa [henc.toNat_ofNat, henc'.toNat_ofNat] at hval
  · rintro ⟨hlen, hmod⟩
    rw [hmod] at henc
    exact henc.eq_of_length henc' (by rw [length_varint, length_varint, hlen])

/-- The smallest value that is written in 8 bytes shares its encoding with a larger one. -/
theorem varint_collision : varint 0x40000000 = varint 0x4000000040000000 :=
  varint_eq_varint_iff.2 ⟨by decide, by decide⟩

/-- On an initial segment of the values the encoding is injective exactly as long as the segment
ends at `2 ^ 62 + 2 ^ 30` or before: the values from `2 ^ 62` on lose their two most significant
bits, but the first of them are written wider than the small values they decode to. -/
theorem injOn_varint_iff (N : ℕ) :
    Set.InjOn varint {v | v.toNat < N} ↔ N ≤ 2 ^ 62 + 2 ^ 30 := by
  constructor
  · intro hinj
    by_contra hN
    have hlow : (0x40000000 : UInt64).toNat < N := by
      simp only [UInt64.reduceToNat]
      omega
    have hhigh : (0x4000000040000000 : UInt64).toNat < N := by
      simp only [UInt64.reduceToNat]
      omega
    exact absurd (hinj hlow hhigh varint_collision) (by decide)
  · intro hN v hv v' hv' h
    obtain ⟨hlen, hmod⟩ := varint_eq_varint_iff.1 h
    have hwide := varintLen_eq_eight (v := v)
    have hwide' := varintLen_eq_eight (v := v')
    have hlt : v.toNat < N := hv
    have hlt' : v'.toNat < N := hv'
    rw [hlen] at hwide
    have hiff : 2 ^ 30 ≤ v.toNat ↔ 2 ^ 30 ≤ v'.toNat := hwide.symm.trans hwide'
    exact UInt64.toNat_inj.1 (by omega)

/-- The four routines agree on the values below `2 ^ 62`, the decoder accepts exactly what is as
long as its first byte announces, and the larger values lose their two most significant bits. -/
theorem varint_routines_agree :
    (∀ v : UInt64, v.toNat < 2 ^ 62 →
      WritersAgree v (varintLen v) ∧
        IsLeast {w | w ∈ [1, 2, 4, 8] ∧ v.toNat < 2 ^ (8 * w - 2)} (varintLen v) ∧
        ∀ rest, getVarint (putVarint [] v ++ rest) = some (v, varintLen v)) ∧
    (∀ b v n, getVarint b = some (v, n) →
      n ∈ [1, 2, 4, 8] ∧ n ≤ b.length ∧ v.toNat < 2 ^ 62 ∧ varintLen v ≤ n ∧
        ∀ b', b'.take n = b.take n → getVarint b' = some (v, n)) ∧
    (∀ b, getVarint b = none ↔
      b = [] ∨ ∃ first rest, b = first :: rest ∧ b.length < 2 ^ (first.toNat / 64)) ∧
    (∀ v : UInt64, 2 ^ 62 ≤ v.toNat →
      WritersAgree v 8 ∧
        ∀ rest, getVarint (putVarint [] v ++ rest) = some (.ofNat (v.toNat % 2 ^ 62), 8)) ∧
    (∀ v, getVarint (putVarint [] v) = some (v, varintLen v) ↔ v.toNat < 2 ^ 62) ∧
    ∀ N, Set.InjOn (putVarint []) {v | v.toNat < N} ↔ N ≤ 2 ^ 62 + 2 ^ 30 := by
  refine ⟨fun v hv => ⟨writersAgree_varintLen v, isLeast_varintLen hv, getVarint_varint hv⟩,
    fun b v n h => ?_, fun b => ?_, fun v hv => ?_, fun v => ⟨fun h => ?_, fun hv => ?_⟩,
    injOn_varint_iff⟩
  · obtain ⟨hn, hle, hv⟩ := getVarint_bounds h
    exact ⟨by simpa using hn, hle, hv, varintLen_le_of_getVarint h, fun b' => getVarint_congr h⟩
  · rw [getVarint_eq_none_iff]
    cases b with
    | nil => simp
    | cons first rest => simp [varintWidth_eq]
  · have hlen : varintLen v = 8 := varintLen_eq_eight.2 (by omega)
    refine ⟨hlen ▸ writersAgree_varintLen v, fun rest => ?_⟩
    rw [← hlen]
    exact getVarint_varint_mod v rest
  · exact (getVarint_bounds h).2.2
  · simpa [varint] using getVarint_varint hv []

/-- Nothing about injectivity changes at `2 ^ 62` itself: the encoding is still injective on the
values up to and including `2 ^ 62`, and below it `2 ^ 30` already shares its encoding with a larger
value. -/
theorem varint_not_injective_exactly :
    ¬ (∀ N, Set.InjOn (putVarint []) {v | v.toNat < N} ↔ N ≤ 2 ^ 62) ∧
      ¬ ∀ v, (∀ v', putVarint [] v' = putVarint [] v → v' = v) ↔ v.toNat < 2 ^ 62 := by
  refine ⟨fun h => ?_, fun h => ?_⟩
  · exact absurd ((h (2 ^ 62 + 1)).1 ((injOn_varint_iff _).2 (by decide))) (by decide)
  · exact absurd ((h 0x40000000).2 (by decide) _ varint_collision.symm) (by decide)

end Rsteria.Protocol
