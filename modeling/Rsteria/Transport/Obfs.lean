import Rsteria.Lib.Buffer
import Rsteria.Protocol.Varint

/-!
# Salamander obfuscation

`Salamander` of `src/transport/obfs.rs`. A wire datagram is a salt of 8 bytes and a payload that is
masked with a key stream: the BLAKE2b-256 digest of the pre-shared key and the salt, repeated. The
digest is a parameter of this file, any function from byte strings to 32 bytes.

`obfuscate` and `deobfuscate` write into a buffer of the caller and return the number of bytes
written, with `0` for a datagram that is rejected. What they write is `salted` of the payload
(`obfuscate_eq`) and `unmask` of the datagram (`deobfuscate_eq`), and otherwise they leave the
buffer alone. The two descriptions are inverse to each other (`unmask_salted`, `salted_unmask`). The
salt is an argument of `obfuscate`: the random bytes that are drawn for the datagram.

## Main definitions

* `Transport.Salamander`, `Transport.Salamander.obfuscate`, `Transport.Salamander.deobfuscate`.
* `Transport.Salamander.unmask` : the payload of a wire datagram.
* `Transport.Salamander.salted` : the wire datagram of a payload under a salt.

## Main results

* `Transport.Salamander.unmask_salted`, `Transport.Salamander.salted_unmask`.
* `Transport.Salamander.obfuscate_eq`, `Transport.Salamander.obfuscate_of_lt`.
* `Transport.Salamander.deobfuscate_eq`, `Transport.Salamander.deobfuscate_of_not_accepts`.
-/

namespace Rsteria.Transport

open Buffer Protocol

/-- `SALT_LEN`. -/
def saltLen : ℕ := 8

/-- `KEY_LEN`. -/
def keyLen : ℕ := 32

/-- `MIN_PSK_LEN`. -/
def minPskLen : ℕ := 4

/-- A 32-byte digest. -/
abbrev Digest := Fin keyLen → UInt8

/-- The salt that is drawn for a datagram. -/
abbrev Salt := { salt : Bytes // salt.length = saltLen }

/-- A pre-shared key that is long enough. -/
structure Salamander where
  psk : Bytes
  minPskLen_le : minPskLen ≤ psk.length

namespace Salamander

/-- Build an obfuscator from a pre-shared key, unless it is too short. -/
def new (psk : Bytes) : Option Salamander :=
  if h : psk.length < minPskLen then none else some ⟨psk, not_lt.1 h⟩

variable (blake2b256 : Bytes → Digest) (obfs : Salamander)

/-- The key for a salt. -/
def key (salt : Bytes) : Digest := blake2b256 (obfs.psk ++ salt)

/-- The loop that masks the bytes of `input` from position `i` on into `out`, behind the salt. -/
def obfuscateLoop (key : Digest) : ℕ → Bytes → Bytes → Bytes
  | _, [], out => out
  | i, c :: input, out =>
    obfuscateLoop key (i + 1) input
      (out.set (i + saltLen) (c ^^^ key ⟨i % keyLen, Nat.mod_lt i (by decide)⟩))

/-- Obfuscate `input` into `out` with the salt that is drawn: the number of bytes written, or `0` if
`out` is too small, and the buffer afterwards. -/
def obfuscate (salt : Salt) (input out : Bytes) : ℕ × Bytes :=
  let outLen := input.length + saltLen
  if out.length < outLen then (0, out)
  else
    let out := writeAt out 0 salt.1
    let key := obfs.key blake2b256 (out.take saltLen)
    (outLen, obfuscateLoop key 0 input out)

/-- The loop that masks the bytes of `input` with the key stream from position `i` on, into
`out`. -/
def maskLoop (key : Digest) : ℕ → Bytes → Bytes → Bytes
  | _, [], out => out
  | i, c :: input, out =>
    maskLoop key (i + 1) input (out.set i (c ^^^ key ⟨i % keyLen, Nat.mod_lt i (by decide)⟩))

/-- Deobfuscate `input` into `out`: the number of payload bytes, or `0` if the packet is too short
or `out` too small, and the buffer afterwards. -/
def deobfuscate (input out : Bytes) : ℕ × Bytes :=
  if input.length ≤ saltLen then (0, out)
  else
    let outLen := input.length - saltLen
    if out.length < outLen then (0, out)
    else
      let key := obfs.key blake2b256 (input.take saltLen)
      (outLen, maskLoop key 0 (input.drop saltLen) out)

/-! ### The payload of a datagram -/

/-- The bytes masked with the key stream from position `i` on. -/
def mask (key : Digest) : ℕ → Bytes → Bytes
  | _, [] => []
  | i, c :: input => (c ^^^ key ⟨i % keyLen, Nat.mod_lt i (by decide)⟩) :: mask key (i + 1) input

/-- The payload of a wire datagram. -/
def unmask (w : Bytes) : Bytes := mask (obfs.key blake2b256 (w.take saltLen)) 0 (w.drop saltLen)

@[simp] theorem length_mask (key : Digest) (i : ℕ) (input : Bytes) :
    (mask key i input).length = input.length := by
  induction input generalizing i with
  | nil => rfl
  | cons c input ih => rw [mask, List.length_cons, List.length_cons, ih]

@[simp] theorem length_unmask (w : Bytes) :
    (obfs.unmask blake2b256 w).length = w.length - saltLen := by
  rw [unmask, length_mask, List.length_drop]

/-- Different bytes stay different under the mask. -/
theorem mask_injective (key : Digest) (i : ℕ) {x y : Bytes} (h : mask key i x = mask key i y) :
    x = y := by
  induction x generalizing i y with
  | nil =>
    have hlen := congrArg List.length h
    rw [length_mask, length_mask] at hlen
    exact (List.length_eq_zero_iff.1 hlen.symm).symm
  | cons c x ih =>
    cases y with
    | nil => exact absurd h (by simp [mask])
    | cons c' y =>
      rw [mask, mask, List.cons.injEq, UInt8.xor_left_inj] at h
      rw [h.1, ih (i + 1) h.2]

/-- The loop writes the masked bytes behind what it has written so far. -/
theorem maskLoop_eq (key : Digest) (input done rest : Bytes) (h : input.length ≤ rest.length) :
    maskLoop key done.length input (done ++ rest) =
      done ++ mask key done.length input ++ rest.drop input.length := by
  induction input generalizing done rest with
  | nil => simp [maskLoop, mask]
  | cons c input ih =>
    cases rest with
    | nil => simp at h
    | cons b rest =>
      have ih := ih (done ++ [c ^^^ key ⟨done.length % keyLen, Nat.mod_lt _ (by decide)⟩]) rest
        (by simpa using h)
      simp only [List.length_append, List.length_singleton, List.append_assoc,
        List.singleton_append] at ih
      rw [maskLoop, mask, List.set_append_right _ _ le_rfl, Nat.sub_self, List.set_cons_zero, ih]
      simp

/-- The wire datagram of a payload under a salt. -/
def salted (salt : Salt) (x : Bytes) : Bytes :=
  salt.1 ++ mask (obfs.key blake2b256 salt.1) 0 x

@[simp] theorem length_salted (salt : Salt) (x : Bytes) :
    (obfs.salted blake2b256 salt x).length = x.length + saltLen := by
  rw [salted, List.length_append, length_mask, salt.2, Nat.add_comm]

/-- Masking twice gives the bytes back. -/
theorem mask_mask (key : Digest) (i : ℕ) (x : Bytes) : mask key i (mask key i x) = x := by
  induction x generalizing i with
  | nil => rfl
  | cons c x ih => rw [mask, mask, ih, UInt8.xor_assoc, UInt8.xor_self, UInt8.xor_zero]

/-- The payload of a salted datagram. -/
theorem unmask_salted (salt : Salt) (x : Bytes) :
    obfs.unmask blake2b256 (obfs.salted blake2b256 salt x) = x := by
  rw [unmask, salted, List.take_left' salt.2, List.drop_left' salt.2, mask_mask]

/-- Every datagram that has a salt is the salted datagram of its payload. -/
theorem salted_unmask (w : Bytes) (h : saltLen ≤ w.length) :
    obfs.salted blake2b256 ⟨w.take saltLen, List.length_take_of_le h⟩ (obfs.unmask blake2b256 w) =
      w := by
  rw [salted, unmask, mask_mask, List.take_append_drop]

/-- The loop writes behind the salt what the loop of the other direction writes at the front. -/
theorem obfuscateLoop_eq (key : Digest) (i : ℕ) (input salt out : Bytes)
    (hsalt : salt.length = saltLen) :
    obfuscateLoop key i input (salt ++ out) = salt ++ maskLoop key i input out := by
  induction input generalizing i out with
  | nil => rfl
  | cons c input ih =>
    rw [obfuscateLoop, maskLoop, ← ih, List.set_append_right _ _ (by omega), hsalt,
      Nat.add_sub_cancel]

/-- A datagram longer than the salt whose payload fits the buffer. -/
def Accepts (input : Bytes) (outLen : ℕ) : Prop :=
  saltLen < input.length ∧ input.length - saltLen ≤ outLen

instance (input : Bytes) (outLen : ℕ) : Decidable (Accepts input outLen) :=
  inferInstanceAs (Decidable (_ ∧ _))

variable {blake2b256 obfs}

/-- An accepted datagram is unmasked into the front of the buffer. -/
theorem deobfuscate_eq {input out : Bytes} (h : Accepts input out.length) :
    obfs.deobfuscate blake2b256 input out = (input.length - saltLen,
      obfs.unmask blake2b256 input ++ out.drop (input.length - saltLen)) := by
  have hloop := maskLoop_eq (obfs.key blake2b256 (input.take saltLen)) (input.drop saltLen) [] out
    (by rw [List.length_drop]; exact h.2)
  rw [deobfuscate, if_neg (not_le.2 h.1), if_neg (not_lt.2 h.2)]
  simpa [unmask] using hloop

/-- A datagram that is not accepted leaves the buffer alone. -/
theorem deobfuscate_of_not_accepts {input out : Bytes} (h : ¬ Accepts input out.length) :
    obfs.deobfuscate blake2b256 input out = (0, out) := by
  by_cases hshort : input.length ≤ saltLen
  · rw [deobfuscate, if_pos hshort]
  · have hsmall : out.length < input.length - saltLen :=
      not_le.1 fun hfits => h ⟨not_le.1 hshort, hfits⟩
    rw [deobfuscate, if_neg hshort]
    exact if_pos hsmall

/-- Obfuscating into a large enough buffer writes the salted datagram over its front. -/
theorem obfuscate_eq (salt : Salt) {input out : Bytes} (h : input.length + saltLen ≤ out.length) :
    obfs.obfuscate blake2b256 salt input out = (input.length + saltLen,
      obfs.salted blake2b256 salt input ++ out.drop (input.length + saltLen)) := by
  have hwrite : writeAt out 0 salt.1 = salt.1 ++ out.drop saltLen := by
    simp [writeAt, salt.2]
  have hloop := maskLoop_eq (obfs.key blake2b256 salt.1) input [] (out.drop saltLen)
    (by rw [List.length_drop]; omega)
  rw [List.length_nil, List.nil_append, List.nil_append, List.drop_drop] at hloop
  rw [obfuscate, if_neg (not_lt.2 h)]
  simp only [hwrite, List.take_left' salt.2, obfuscateLoop_eq _ _ _ _ _ salt.2, hloop, salted,
    List.append_assoc, Nat.add_comm]

theorem obfuscate_of_lt (salt : Salt) {input out : Bytes}
    (h : out.length < input.length + saltLen) :
    obfs.obfuscate blake2b256 salt input out = (0, out) :=
  if_pos h

theorem length_obfuscate (salt : Salt) (input out : Bytes) :
    (obfs.obfuscate blake2b256 salt input out).2.length = out.length := by
  by_cases h : out.length < input.length + saltLen
  · rw [obfuscate_of_lt salt h]
  · have h := not_lt.1 h
    rw [obfuscate_eq salt h, List.length_append, length_salted, List.length_drop]
    omega

end Salamander

end Rsteria.Transport
