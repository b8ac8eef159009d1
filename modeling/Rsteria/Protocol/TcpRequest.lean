import Rsteria.Protocol.UdpMessage

/-!
# The TCP request

`encode_tcp_request` of `src/protocol.rs` writes
`varint(0x401) | varint(addr_len) | addr | varint(pad_len) | pad` with a random padding, and with
fast-open the data of the application follows it on the stream at once. The server has to find the
end of the request in what it receives. Reading field by field with the decoder of varints it does,
whatever follows (`decodeTcpRequest_append`), so a request is not a prefix of one for another
address.

A value that the generator draws from `0..n` is given as `r % n` for a number `r`.

## Main definitions

* `Protocol.randomPadding`, `Protocol.encodeTcpRequest`.
* `Protocol.decodeTcpRequest` : reading a request field by field.

## Main results

* `Protocol.encodeTcpRequest_self_delimiting` : a request is found again in front of anything.
-/

namespace Rsteria.Protocol

/-- `FRAME_TYPE_TCP_REQUEST`. -/
def frameTypeTcpRequest : UInt64 := 0x401

/-- `PADDING_CHARS`. -/
def paddingChars : Bytes :=
  "abcdefghijklmnopqrstuvwxyzABCDEFGHIJKLMNOPQRSTUVWXYZ0123456789".toList.map fun c =>
    UInt8.ofNat c.toNat

/-- Random alphanumeric padding of a length from `min` to `max - 1`, with the draw of the length and
those of the characters. -/
def randomPadding (min max r : ℕ) (draws : ℕ → ℕ) : Bytes :=
  let n := if max > min then min + r % (max - min) else min
  (List.range n).map fun i =>
    paddingChars.get ⟨draws i % paddingChars.length, Nat.mod_lt _ (by decide)⟩

/-- The padding of a TCP request. -/
def tcpRequestPadding (r : ℕ) (draws : ℕ → ℕ) : Bytes := randomPadding 64 512 r draws

/-- `encode_tcp_request`, with the draws for the padding. -/
def encodeTcpRequest (address : String) (r : ℕ) (draws : ℕ → ℕ) : Bytes :=
  let pad := tcpRequestPadding r draws
  let buf := putVarint [] frameTypeTcpRequest
  let buf := putVarint buf (.ofNat address.utf8ByteSize)
  let buf := buf ++ utf8Bytes address
  let buf := putVarint buf (.ofNat pad.length)
  buf ++ pad

/-! ### Reading a request -/

/-- Read a field with a length in front of it: the field, and what follows it. -/
def readField (b : Bytes) : Option (Bytes × Bytes) := do
  let (len, n) ← getVarint b
  let b := b.drop n
  if len.toNat ≤ b.length then some (b.take len.toNat, b.drop len.toNat) else none

/-- What is read of a request. -/
structure TcpRequest where
  frameType : UInt64
  address : Bytes
  padding : Bytes
  rest : Bytes
  deriving DecidableEq, Repr

/-- Read a request field by field. -/
def decodeTcpRequest (b : Bytes) : Option TcpRequest := do
  let (frameType, n) ← getVarint b
  let (address, b) ← readField (b.drop n)
  let (padding, rest) ← readField b
  return ⟨frameType, address, padding, rest⟩

/-- A field is read back, whatever follows it. -/
theorem readField_append {field : Bytes} (hlen : field.length < 2 ^ 62) (t : Bytes) :
    readField (varint (.ofNat field.length) ++ (field ++ t)) = some (field, t) := by
  have hnat : (UInt64.ofNat field.length).toNat = field.length := by
    rw [UInt64.toNat_ofNat']
    omega
  have hdrop : (varint (.ofNat field.length) ++ (field ++ t)).drop
      (varintLen (.ofNat field.length)) = field ++ t := List.drop_left' (length_varint _)
  have hle : field.length ≤ (field ++ t).length := by
    rw [List.length_append]
    omega
  rw [readField, getVarint_varint (by rwa [hnat])]
  simp only [Option.bind_eq_bind, Option.bind_some, hdrop, hnat, hle, if_true, List.take_left,
    List.drop_left]

/-! ### The padding -/

/-- `u8::is_ascii_alphanumeric`. -/
def isAsciiAlphanumeric (b : UInt8) : Bool :=
  (0x30 ≤ b && b ≤ 0x39) || (0x41 ≤ b && b ≤ 0x5a) || (0x61 ≤ b && b ≤ 0x7a)

theorem isAsciiAlphanumeric_paddingChars :
    ∀ b ∈ paddingChars, isAsciiAlphanumeric b = true :=
  List.all_eq_true.1 (by decide : paddingChars.all isAsciiAlphanumeric = true)

theorem length_tcpRequestPadding (r : ℕ) (draws : ℕ → ℕ) :
    (tcpRequestPadding r draws).length = 64 + r % 448 := by
  rw [tcpRequestPadding, randomPadding, List.length_map, List.length_range]
  rfl

theorem isAsciiAlphanumeric_tcpRequestPadding {r : ℕ} {draws : ℕ → ℕ} {b : UInt8}
    (hb : b ∈ tcpRequestPadding r draws) : isAsciiAlphanumeric b = true := by
  obtain ⟨i, -, rfl⟩ := List.mem_map.1 hb
  exact isAsciiAlphanumeric_paddingChars _ (List.get_mem _ _)

/-! ### A request in front of anything -/

theorem encodeTcpRequest_eq (address : String) (r : ℕ) (draws : ℕ → ℕ) :
    encodeTcpRequest address r draws = varint frameTypeTcpRequest ++
      (varint (.ofNat (utf8Bytes address).length) ++ (utf8Bytes address ++
        (varint (.ofNat (tcpRequestPadding r draws).length) ++ tcpRequestPadding r draws))) := by
  simp only [encodeTcpRequest, putVarint_eq, List.nil_append, List.append_assoc, length_utf8Bytes]

/-- A request is read back, whatever follows it. -/
theorem decodeTcpRequest_append {address : String} (h : address.utf8ByteSize < 2 ^ 62) (r : ℕ)
    (draws : ℕ → ℕ) (t : Bytes) :
    decodeTcpRequest (encodeTcpRequest address r draws ++ t) =
      some ⟨frameTypeTcpRequest, utf8Bytes address, tcpRequestPadding r draws, t⟩ := by
  have hpad : (tcpRequestPadding r draws).length < 2 ^ 62 := by
    rw [length_tcpRequestPadding]
    omega
  have haddr : (utf8Bytes address).length < 2 ^ 62 := h
  have hframe : frameTypeTcpRequest.toNat < 2 ^ 62 := by decide
  rw [encodeTcpRequest_eq, decodeTcpRequest]
  simp only [List.append_assoc]
  rw [getVarint_varint hframe]
  simp only [Option.bind_eq_bind, Option.bind_some]
  rw [List.drop_left' (length_varint _), readField_append haddr, Option.bind_some,
    readField_append hpad]
  rfl

/-- The bytes of a string determine it. -/
theorem utf8Bytes_injective {s s' : String} (h : utf8Bytes s = utf8Bytes s') : s = s' := by
  have hs := stringFromUtf8_utf8Bytes s
  rw [h, stringFromUtf8_utf8Bytes] at hs
  exact (Option.some.inj hs).symm

/-- **A request is self-delimiting.** Read field by field, a request with anything after it gives
the frame type, the address, a padding of 64 to 511 alphanumeric characters and what comes after it.
A request is not a prefix of one for another address. -/
theorem encodeTcpRequest_self_delimiting (address : String) (h : address.utf8ByteSize < 2 ^ 62)
    (r : ℕ) (draws : ℕ → ℕ) :
    (∃ pad : Bytes, 64 ≤ pad.length ∧ pad.length ≤ 511 ∧
      (∀ b ∈ pad, isAsciiAlphanumeric b = true) ∧
      ∀ t : Bytes, decodeTcpRequest (encodeTcpRequest address r draws ++ t) =
        some ⟨0x401, utf8Bytes address, pad, t⟩) ∧
      ∀ (address' : String) (r' : ℕ) (draws' : ℕ → ℕ), address'.utf8ByteSize < 2 ^ 62 →
        address' ≠ address →
        ¬ encodeTcpRequest address r draws <+: encodeTcpRequest address' r' draws' := by
  refine ⟨⟨tcpRequestPadding r draws, ?_, ?_, fun b hb => isAsciiAlphanumeric_tcpRequestPadding hb,
    decodeTcpRequest_append h r draws⟩, fun address' r' draws' h' hne hprefix => hne ?_⟩
  · rw [length_tcpRequestPadding]
    omega
  · rw [length_tcpRequestPadding]
    have := Nat.mod_lt r (show 0 < 448 by omega)
    omega
  · obtain ⟨t, ht⟩ := hprefix
    have hlong := decodeTcpRequest_append h' r' draws' []
    rw [List.append_nil, ← ht, decodeTcpRequest_append h r draws t] at hlong
    exact utf8Bytes_injective (congrArg TcpRequest.address (Option.some.inj hlong)).symm

/-- A request for a short address, with the shortest padding. -/
theorem encodeTcpRequest_self_delimiting_short :
    (∃ pad : Bytes, 64 ≤ pad.length ∧ pad.length ≤ 511 ∧
      (∀ b ∈ pad, isAsciiAlphanumeric b = true) ∧
      ∀ t : Bytes, decodeTcpRequest (encodeTcpRequest "a:1" 0 (fun i => i) ++ t) =
        some ⟨0x401, utf8Bytes "a:1", pad, t⟩) ∧
      ¬ encodeTcpRequest "a:1" 0 (fun i => i) <+: encodeTcpRequest "a:10" 5 (fun _ => 7) := by
  obtain ⟨hread, hprefix⟩ := encodeTcpRequest_self_delimiting "a:1" (by decide) 0 fun i => i
  exact ⟨hread, hprefix "a:10" 5 (fun _ => 7) (by decide) (by decide)⟩

end Rsteria.Protocol
