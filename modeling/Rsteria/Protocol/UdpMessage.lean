import Rsteria.Protocol.TcpResponse

/-!
# UDP messages on the wire

A relayed UDP packet travels in a QUIC datagram as
`session_id(u32) | packet_id(u16) | frag_id(u8) | frag_count(u8) | varint(addr_len) | addr | data`,
with big-endian integers. This file models `UdpMessage` of `src/protocol.rs` with its encoder, which
writes into a buffer of the caller, and its parser. An address is a `String`: in Lean as in Rust its
bytes are valid UTF-8, and its length is counted in bytes.

The encoder writes field after field at increasing offsets; `serialize_eq` says that a long enough
buffer then starts with the bytes `UdpMessage.wire` and keeps its old tail. `parse_wire` inverts it
on every message whose address has 1 to 2048 bytes and whose data is not empty.

## Main definitions

* `Protocol.UdpMessage`, with `headerSize`, `size`, `serialize` and `parse`.
* `Protocol.UdpMessage.wire` : the bytes of a message.
* `Protocol.UdpMessage.WellFormed` : the messages that the format can carry.
* `Protocol.UdpMessage.Layout` : the parts of a datagram, with a length field of any width.

## Main results

* `Protocol.UdpMessage.serialize_eq`, `Protocol.UdpMessage.parse_wire`.
* `Protocol.UdpMessage.parse_grammar` : the parser accepts exactly the wire grammar.
* `Protocol.UdpMessage.serialize_parse` : encoding and decoding are mutually inverse.
-/

namespace Rsteria.Protocol

open Buffer

/-! ### Big-endian integers -/

/-- `u32::to_be_bytes`. -/
def u32ToBeBytes (x : UInt32) : Bytes :=
  [(x >>> 24).toUInt8, (x >>> 16).toUInt8, (x >>> 8).toUInt8, x.toUInt8]

/-- `u16::to_be_bytes`. -/
def u16ToBeBytes (x : UInt16) : Bytes := [(x >>> 8).toUInt8, x.toUInt8]

/-- `u32::from_be_bytes`. -/
def u32FromBeBytes (b₀ b₁ b₂ b₃ : UInt8) : UInt32 := .ofNat (ofDigits256 0 [b₀, b₁, b₂, b₃])

/-- `u16::from_be_bytes`. -/
def u16FromBeBytes (b₀ b₁ : UInt8) : UInt16 := .ofNat (ofDigits256 0 [b₀, b₁])

theorem u32FromBeBytes_toBeBytes (x : UInt32) :
    u32FromBeBytes (x >>> 24).toUInt8 (x >>> 16).toUInt8 (x >>> 8).toUInt8 x.toUInt8 = x := by
  apply UInt32.toNat_inj.1
  have hx := x.toNat_lt
  simp only [u32FromBeBytes, ofDigits256, List.foldl_cons, List.foldl_nil, UInt32.toNat_ofNat',
    UInt32.toNat_toUInt8, UInt32.toNat_shiftRight, UInt32.reduceToNat, Nat.reduceMod,
    Nat.shiftRight_eq_div_pow]
  omega

theorem u16FromBeBytes_toBeBytes (x : UInt16) :
    u16FromBeBytes (x >>> 8).toUInt8 x.toUInt8 = x := by
  apply UInt16.toNat_inj.1
  have hx := x.toNat_lt
  simp only [u16FromBeBytes, ofDigits256, List.foldl_cons, List.foldl_nil, UInt16.toNat_ofNat',
    UInt16.toNat_toUInt8, UInt16.toNat_shiftRight, UInt16.reduceToNat, Nat.reduceMod,
    Nat.shiftRight_eq_div_pow]
  omega

theorem toBeBytes_u32FromBeBytes (b₀ b₁ b₂ b₃ : UInt8) :
    u32ToBeBytes (u32FromBeBytes b₀ b₁ b₂ b₃) = [b₀, b₁, b₂, b₃] := by
  have h₀ := b₀.toNat_lt
  have h₁ := b₁.toNat_lt
  have h₂ := b₂.toNat_lt
  have h₃ := b₃.toNat_lt
  simp only [u32ToBeBytes, List.cons.injEq, and_true]
  refine ⟨?_, ?_, ?_, ?_⟩ <;> apply UInt8.toNat_inj.1 <;>
  simp only [u32FromBeBytes, ofDigits256, List.foldl_cons, List.foldl_nil, UInt32.toNat_ofNat',
    UInt32.toNat_toUInt8, UInt32.toNat_shiftRight, UInt32.reduceToNat, Nat.reduceMod,
    Nat.shiftRight_eq_div_pow] <;>
  omega

theorem toBeBytes_u16FromBeBytes (b₀ b₁ : UInt8) :
    u16ToBeBytes (u16FromBeBytes b₀ b₁) = [b₀, b₁] := by
  have h₀ := b₀.toNat_lt
  have h₁ := b₁.toNat_lt
  simp only [u16ToBeBytes, List.cons.injEq, and_true]
  refine ⟨?_, ?_⟩ <;> apply UInt8.toNat_inj.1 <;>
  simp only [u16FromBeBytes, ofDigits256, List.foldl_cons, List.foldl_nil, UInt16.toNat_ofNat',
    UInt16.toNat_toUInt8, UInt16.toNat_shiftRight, UInt16.reduceToNat, Nat.reduceMod,
    Nat.shiftRight_eq_div_pow] <;>
  omega

/-! ### Messages -/

/-- A UDP packet, or a fragment of one, encapsulated for relay. -/
structure UdpMessage where
  sessionId : UInt32
  packetId : UInt16
  fragId : UInt8
  fragCount : UInt8
  addr : String
  data : Bytes
  deriving DecidableEq, Repr

/-- The UTF-8 bytes of a string (`str::as_bytes`). -/
def utf8Bytes (s : String) : Bytes := s.toByteArray.data.toList

@[simp] theorem length_utf8Bytes (s : String) : (utf8Bytes s).length = s.utf8ByteSize := rfl

/-- `String::from_utf8`. -/
def stringFromUtf8 (bytes : Bytes) : Option String := String.fromUTF8? bytes.toByteArray

theorem toByteArray_utf8Bytes (s : String) : (utf8Bytes s).toByteArray = s.toByteArray := by
  apply ByteArray.ext
  rw [List.data_toByteArray, utf8Bytes, Array.toArray_toList]

theorem stringFromUtf8_utf8Bytes (s : String) : stringFromUtf8 (utf8Bytes s) = some s := by
  rw [stringFromUtf8, toByteArray_utf8Bytes, String.fromUTF8?, dif_pos s.isValidUTF8]
  rfl

theorem stringFromUtf8_eq_some_iff {bytes : Bytes} {s : String} :
    stringFromUtf8 bytes = some s ↔ utf8Bytes s = bytes := by
  constructor
  · intro h
    rw [stringFromUtf8, String.fromUTF8?] at h
    split_ifs at h with hvalid
    obtain rfl := Option.some.inj h
    change bytes.toByteArray.data.toList = bytes
    rw [List.data_toByteArray]
  · rintro rfl
    exact stringFromUtf8_utf8Bytes s

namespace UdpMessage

variable (m : UdpMessage)

/-- The length of the address as the value of its varint (`self.addr.len() as u64`). -/
def addrLen : UInt64 := .ofNat m.addr.utf8ByteSize

/-- Size of everything before the payload. -/
def headerSize : ℕ := 4 + 2 + 1 + 1 + varintLen m.addrLen + m.addr.utf8ByteSize

/-- Size of the whole message. -/
def size : ℕ := m.headerSize + m.data.length

/-- Serialize into `buf`: the number of bytes written, or `none` if `buf` is too small, and the
buffer afterwards. -/
def serialize (buf : Bytes) : Option ℕ × Bytes :=
  let total := m.size
  if buf.length < total then (none, buf)
  else
    let buf := writeAt buf 0 (u32ToBeBytes m.sessionId)
    let buf := writeAt buf 4 (u16ToBeBytes m.packetId)
    let buf := buf.set 6 m.fragId
    let buf := buf.set 7 m.fragCount
    let i := 8
    let (n, tail) := putVarintSlice (buf.drop i) m.addrLen
    let buf := buf.take i ++ tail
    let i := i + n
    let buf := writeAt buf i (utf8Bytes m.addr)
    let i := i + m.addr.utf8ByteSize
    let buf := writeAt buf i m.data
    let i := i + m.data.length
    (some i, buf)

/-- Parse a message from a complete datagram. -/
def parse (msg : Bytes) : Option UdpMessage :=
  if h : msg.length < 8 then none
  else
    let sessionId := u32FromBeBytes msg[0] msg[1] msg[2] msg[3]
    let packetId := u16FromBeBytes msg[4] msg[5]
    let fragId := msg[6]
    let fragCount := msg[7]
    match getVarint (slice msg 8 msg.length ⟨not_lt.1 h, le_rfl⟩) with
    | some (addrLen, n) =>
      if addrLen = 0 ∨ addrLen > maxMessageLength then none
      else
        let addrStart := 8 + n
        let addrEnd := addrStart + addrLen.toNat
        if h' : msg.length ≤ addrEnd then none
        else
          (stringFromUtf8 (slice msg addrStart addrEnd ⟨by omega, by omega⟩)).map fun addr =>
            let data := slice msg addrEnd msg.length ⟨by omega, le_rfl⟩
            ⟨sessionId, packetId, fragId, fragCount, addr, data⟩
    | none => none

/-! ### The bytes of a message -/

/-- The bytes of a message up to the varint of the address length. -/
def fixedHeader : Bytes :=
  u32ToBeBytes m.sessionId ++ u16ToBeBytes m.packetId ++ [m.fragId, m.fragCount]

/-- The bytes of a message. -/
def wire : Bytes := m.fixedHeader ++ varint m.addrLen ++ utf8Bytes m.addr ++ m.data

@[simp] theorem length_fixedHeader : m.fixedHeader.length = 8 := rfl

@[simp] theorem length_wire : m.wire.length = m.size := by
  simp only [wire, List.length_append, length_fixedHeader, length_varint, length_utf8Bytes, size,
    headerSize]

/-- The messages that the format can carry. -/
structure WellFormed : Prop where
  addr_pos : 1 ≤ m.addr.utf8ByteSize
  addr_le : m.addr.utf8ByteSize ≤ 2048
  data_ne_nil : m.data ≠ []

variable {m}

/-- The integers and the fragment numbers fill the first eight bytes of a buffer. -/
private theorem write_fixedHeader (a b : List UInt8) (ha : a.length = 8) :
    (((writeAt (writeAt (a ++ b) 0 (u32ToBeBytes m.sessionId)) 4
      (u16ToBeBytes m.packetId)).set 6 m.fragId).set 7 m.fragCount) = m.fixedHeader ++ b := by
  match a, ha with
  | [_, _, _, _, _, _, _, _], _ => rfl

/-- Serializing into a long enough buffer writes the bytes of the message over its front. -/
theorem serialize_eq {buf : Bytes} (h : m.size ≤ buf.length) :
    m.serialize buf = (some m.size, m.wire ++ buf.drop m.size) := by
  have h8 : 8 ≤ buf.length := le_trans (by unfold size headerSize; omega) h
  obtain ⟨a, b, ha, rfl⟩ : ∃ a b, a.length = 8 ∧ buf = a ++ b :=
    ⟨buf.take 8, buf.drop 8, by simp [h8], (List.take_append_drop 8 buf).symm⟩
  have hb : varintLen m.addrLen + m.addr.utf8ByteSize + m.data.length ≤ b.length := by
    rw [List.length_append, ha, size, headerSize] at h
    omega
  have hn : (m.fixedHeader ++ varint m.addrLen).length = 8 + varintLen m.addrLen := by
    rw [List.length_append, length_fixedHeader, length_varint]
  have ha' : (m.fixedHeader ++ varint m.addrLen ++ utf8Bytes m.addr).length =
      8 + varintLen m.addrLen + m.addr.utf8ByteSize := by
    rw [List.length_append, hn, length_utf8Bytes]
  rw [serialize, if_neg (not_lt.2 h)]
  simp only [write_fixedHeader a b ha]
  rw [List.drop_left' (length_fixedHeader m), List.take_left' (length_fixedHeader m),
    putVarintSlice_eq b m.addrLen (by omega)]
  simp only
  rw [← List.append_assoc, ← hn, writeAt_append, hn, ← ha', writeAt_append]
  simp only [ha', List.drop_drop, length_utf8Bytes, Prod.mk.injEq, Option.some.injEq]
  have hdrop : (a ++ b).drop m.size =
      b.drop (varintLen m.addrLen + m.addr.utf8ByteSize + m.data.length) := by
    rw [List.drop_append, List.drop_of_length_le (by rw [ha, size, headerSize]; omega),
      List.nil_append, ha, size, headerSize]
    congr 1
    omega
  exact ⟨by rw [size, headerSize], by rw [hdrop, wire]⟩

/-- A message that cannot be serialized leaves the buffer alone. -/
theorem serialize_of_lt {buf : Bytes} (h : buf.length < m.size) :
    m.serialize buf = (none, buf) := by
  rw [serialize, if_pos h]

/-- The datagram that a message is serialized to in a zeroed buffer of `bufLen` bytes: its callers
pass on the bytes that were written, and nothing if the buffer is too small. -/
def toDatagram (m : UdpMessage) (bufLen : ℕ) : Option Bytes :=
  let (n, buf) := m.serialize (List.replicate bufLen 0)
  n.map buf.take

theorem toDatagram_eq {bufLen : ℕ} (h : m.size ≤ bufLen) : m.toDatagram bufLen = some m.wire := by
  rw [toDatagram, serialize_eq (by simpa using h)]
  simp only [Option.map_some, Option.some.injEq]
  exact List.take_left' (length_wire m)

theorem toNat_addrLen (h : m.WellFormed) : m.addrLen.toNat = m.addr.utf8ByteSize := by
  have := h.addr_le
  rw [addrLen, UInt64.toNat_ofNat']
  omega

/-- The address length passes the guard of the parser. -/
private theorem addrLen_guard (h : m.WellFormed) :
    ¬ (m.addrLen = 0 ∨ m.addrLen > maxMessageLength) := by
  have hlen := toNat_addrLen h
  have hpos := h.addr_pos
  have hle := h.addr_le
  rintro (h0 | hgt)
  · rw [h0, UInt64.toNat_zero] at hlen
    omega
  · have : (2048 : ℕ) < m.addrLen.toNat := UInt64.lt_iff_toNat_lt.1 hgt
    omega

/-- The parser reads a message back with any encoding `V` of the length of its address. -/
theorem parse_of_encodes (h : m.WellFormed) {V : Bytes}
    (hV : VarintEncodes V m.addr.utf8ByteSize) :
    parse (m.fixedHeader ++ V ++ utf8Bytes m.addr ++ m.data) = some m := by
  have hget : getVarint (V ++ (utf8Bytes m.addr ++ m.data)) = some (m.addrLen, V.length) :=
    hV.getVarint_append _
  have hlen := toNat_addrLen h
  have hdata := List.length_pos_iff.2 h.data_ne_nil
  generalize hb : m.fixedHeader ++ V ++ utf8Bytes m.addr ++ m.data = b
  have hsize : b.length = 8 + V.length + m.addr.utf8ByteSize + m.data.length := by
    rw [← hb]
    simp only [List.length_append, length_fixedHeader, length_utf8Bytes]
  have hdrop8 : b.drop 8 = V ++ (utf8Bytes m.addr ++ m.data) := by
    rw [← hb]
    simp only [List.append_assoc]
    exact List.drop_left' (length_fixedHeader m)
  have hdrop : b.drop (8 + V.length) = utf8Bytes m.addr ++ m.data := by
    rw [← List.drop_drop, hdrop8, List.drop_left]
  have haddr : (b.take (8 + V.length + m.addrLen.toNat)).drop (8 + V.length) =
      utf8Bytes m.addr := by
    rw [List.drop_take, hdrop, Nat.add_sub_cancel_left]
    exact List.take_left' hlen.symm
  have htail : b.drop (8 + V.length + m.addrLen.toNat) = m.data := by
    rw [← List.drop_drop, hdrop]
    exact List.drop_left' hlen.symm
  rw [parse, dif_neg (by omega)]
  simp only [slice_eq, List.take_length, hdrop8, hget, addrLen_guard h, if_false]
  rw [dif_neg (by omega)]
  simp only [haddr, htail, stringFromUtf8_utf8Bytes, Option.map_some, Option.some.injEq]
  subst hb
  exact congrArg₂ (fun sid pid => (⟨sid, pid, m.fragId, m.fragCount, m.addr, m.data⟩ : UdpMessage))
    (u32FromBeBytes_toBeBytes m.sessionId) (u16FromBeBytes_toBeBytes m.packetId)

theorem varintEncodes_addrLen (h : m.WellFormed) :
    VarintEncodes (varint m.addrLen) m.addr.utf8ByteSize := by
  have hlen := toNat_addrLen h
  have hle := h.addr_le
  rw [← hlen]
  exact varintEncodes_varint (by omega)

/-- **Parsing inverts serializing.** -/
theorem parse_wire (h : m.WellFormed) : parse m.wire = some m :=
  parse_of_encodes h (varintEncodes_addrLen h)

/-- The fields that the parser reads from the first eight bytes. -/
private theorem fixedHeader_of_parse {b : Bytes} (h8 : 8 ≤ b.length) (addr : String)
    (data : Bytes) :
    (UdpMessage.mk (u32FromBeBytes b[0] b[1] b[2] b[3]) (u16FromBeBytes b[4] b[5]) b[6] b[7] addr
      data).fixedHeader = b.take 8 := by
  match b, h8 with
  | b₀ :: b₁ :: b₂ :: b₃ :: b₄ :: b₅ :: b₆ :: b₇ :: t, _ =>
    simp only [fixedHeader, List.getElem_cons_zero, List.getElem_cons_succ,
      toBeBytes_u32FromBeBytes, toBeBytes_u16FromBeBytes]
    rfl

/-- The bytes of a message that was parsed: some encoding of the length of its address stands
between the fixed header and the address. -/
theorem exists_encodes_of_parse {b : Bytes} (h : parse b = some m) :
    m.WellFormed ∧ ∃ V, VarintEncodes V m.addr.utf8ByteSize ∧
      b = m.fixedHeader ++ V ++ utf8Bytes m.addr ++ m.data := by
  rw [parse] at h
  split_ifs at h with h8
  simp only [slice_eq, List.take_length] at h
  split at h
  · rename_i addrLen n hget
    split_ifs at h with hguard hend
    obtain ⟨addr, haddr, rfl⟩ := Option.map_eq_some_iff.1 h
    rw [stringFromUtf8_eq_some_iff, List.drop_take, Nat.add_sub_cancel_left] at haddr
    obtain ⟨V, rest, hdrop, rfl, hV⟩ := getVarint_eq_some_iff.1 hget
    have hrest : b.drop (8 + V.length) = rest := by
      rw [← List.drop_drop, hdrop, List.drop_left]
    have hlen : addrLen.toNat + 8 + V.length < b.length := by omega
    have hrestlen : rest.length = b.length - (8 + V.length) := by rw [← hrest, List.length_drop]
    rw [hrest] at haddr
    have hsize : addr.utf8ByteSize = addrLen.toNat := by
      rw [← length_utf8Bytes, haddr, List.length_take]
      omega
    obtain ⟨hpos, hle⟩ := not_or.1 hguard
    refine ⟨⟨?_, ?_, ?_⟩, V, hsize.symm ▸ hV, ?_⟩
    · have hne : addrLen.toNat ≠ 0 := fun h0 => hpos (UInt64.toNat_inj.1 h0)
      change 1 ≤ addr.utf8ByteSize
      omega
    · have hle : addrLen.toNat ≤ 2048 := UInt64.le_iff_toNat_le.1 (UInt64.not_lt.1 hle)
      change addr.utf8ByteSize ≤ 2048
      omega
    · change b.drop (8 + V.length + addrLen.toNat) ≠ []
      rw [ne_eq, List.drop_eq_nil_iff]
      omega
    · have htail : b.drop (8 + V.length + addrLen.toNat) = rest.drop addrLen.toNat := by
        rw [← List.drop_drop, hrest]
      rw [fixedHeader_of_parse (not_lt.1 h8)]
      change b = b.take 8 ++ V ++ utf8Bytes addr ++ b.drop (8 + V.length + addrLen.toNat)
      rw [htail, haddr, List.append_assoc, List.take_append_drop, List.append_assoc, ← hdrop,
        List.take_append_drop]
  · exact absurd h (by simp)

/-! ### The grammar of a datagram -/

/-- The parts of a datagram: the integers, the bytes of the length field, and those of the address
and the data. -/
structure Layout where
  sessionId : UInt32
  packetId : UInt16
  fragId : UInt8
  fragCount : UInt8
  lenField : Bytes
  addr : Bytes
  data : Bytes

namespace Layout

/-- The datagram. -/
def bytes (l : Layout) : Bytes :=
  u32ToBeBytes l.sessionId ++ u16ToBeBytes l.packetId ++ [l.fragId, l.fragCount] ++ l.lenField ++
    l.addr ++ l.data

/-- The parts that the format allows; the length field has any width. -/
structure Valid (l : Layout) : Prop where
  encodes : VarintEncodes l.lenField l.addr.length
  addr_pos : 1 ≤ l.addr.length
  addr_le : l.addr.length ≤ 2048
  utf8 : l.addr.toByteArray.IsValidUTF8
  data_ne_nil : l.data ≠ []

/-- The message with these parts. -/
structure Reads (l : Layout) (m : UdpMessage) : Prop where
  sessionId_eq : m.sessionId = l.sessionId
  packetId_eq : m.packetId = l.packetId
  fragId_eq : m.fragId = l.fragId
  fragCount_eq : m.fragCount = l.fragCount
  addr_eq : utf8Bytes m.addr = l.addr
  data_eq : m.data = l.data

/-- The layout of a message with an encoding of the length of its address. -/
def ofMessage (m : UdpMessage) (V : Bytes) : Layout :=
  ⟨m.sessionId, m.packetId, m.fragId, m.fragCount, V, utf8Bytes m.addr, m.data⟩

theorem reads_ofMessage (m : UdpMessage) (V : Bytes) : (ofMessage m V).Reads m :=
  ⟨rfl, rfl, rfl, rfl, rfl, rfl⟩

theorem Reads.eq_ofMessage {l : Layout} (h : l.Reads m) : l = ofMessage m l.lenField := by
  obtain ⟨h₁, h₂, h₃, h₄, h₅, h₆⟩ := h
  rw [ofMessage, h₁, h₂, h₃, h₄, h₅, h₆]

theorem valid_ofMessage_iff {V : Bytes} : (ofMessage m V).Valid ↔
    m.WellFormed ∧ VarintEncodes V m.addr.utf8ByteSize := by
  constructor
  · intro h
    exact ⟨⟨h.addr_pos, h.addr_le, h.data_ne_nil⟩, h.encodes⟩
  · rintro ⟨h, hV⟩
    refine ⟨hV, h.addr_pos, h.addr_le, ?_, h.data_ne_nil⟩
    change (utf8Bytes m.addr).toByteArray.IsValidUTF8
    rw [toByteArray_utf8Bytes]
    exact m.addr.isValidUTF8

/-- A valid layout has a message. -/
theorem Valid.exists_reads {l : Layout} (h : l.Valid) : ∃ m, l.Reads m :=
  ⟨⟨l.sessionId, l.packetId, l.fragId, l.fragCount, ⟨l.addr.toByteArray, h.utf8⟩, l.data⟩,
    rfl, rfl, rfl, rfl, by rw [utf8Bytes, List.data_toByteArray], rfl⟩

theorem Valid.parse_bytes {l : Layout} (h : l.Valid) (hm : l.Reads m) : parse l.bytes = some m := by
  rw [hm.eq_ofMessage] at h ⊢
  obtain ⟨hwf, hV⟩ := valid_ofMessage_iff.1 h
  exact parse_of_encodes hwf hV

/-- The parts of a datagram are determined by its bytes. -/
theorem Valid.eq_of_bytes_eq {l l' : Layout} (h : l.Valid) (h' : l'.Valid)
    (hbytes : l.bytes = l'.bytes) : l = l' := by
  obtain ⟨m, hm⟩ := h.exists_reads
  obtain ⟨m', hm'⟩ := h'.exists_reads
  obtain rfl : m = m' := by
    have hparse := h.parse_bytes hm
    rw [hbytes, h'.parse_bytes hm'] at hparse
    exact (Option.some.inj hparse).symm
  have hfield : l.lenField = l'.lenField := by
    rw [hm.eq_ofMessage, hm'.eq_ofMessage] at hbytes
    exact List.append_cancel_left (List.append_cancel_right (List.append_cancel_right hbytes))
  rw [hm.eq_ofMessage, hm'.eq_ofMessage, hfield]

end Layout

theorem parse_eq_some_iff {b : Bytes} :
    parse b = some m ↔ ∃ l : Layout, l.Valid ∧ l.bytes = b ∧ l.Reads m := by
  constructor
  · intro h
    obtain ⟨hwf, V, hV, rfl⟩ := exists_encodes_of_parse h
    exact ⟨.ofMessage m V, Layout.valid_ofMessage_iff.2 ⟨hwf, hV⟩, rfl, Layout.reads_ofMessage m V⟩
  · rintro ⟨l, hl, rfl, hm⟩
    exact hl.parse_bytes hm

/-- **The parser accepts exactly the wire grammar.** It returns the message with the parts of the
datagram, which are determined by its bytes. -/
theorem parse_grammar (b : Bytes) :
    (∀ m, parse b = some m ↔ ∃ l : Layout, l.Valid ∧ l.bytes = b ∧ l.Reads m) ∧
      ∀ l l' : Layout, l.Valid → l'.Valid → l.bytes = b → l'.bytes = b → l = l' :=
  ⟨fun _ => parse_eq_some_iff, fun _ _ h h' hb hb' => h.eq_of_bytes_eq h' (hb.trans hb'.symm)⟩

/-! ### Encoding and decoding -/

/-- The datagram `b` encodes the length of the address of `m` with the shortest varint. -/
def ShortestAddrLen (m : UdpMessage) (b : Bytes) : Prop :=
  ∃ V rest, b.drop 8 = V ++ rest ∧ VarintEncodes V m.addr.utf8ByteSize ∧
    ∀ V', VarintEncodes V' m.addr.utf8ByteSize → V.length ≤ V'.length

theorem serialize_eq_none_iff {buf : Bytes} :
    m.serialize buf = (none, buf) ↔ buf.length < m.size := by
  constructor
  · intro h
    by_contra hle
    rw [serialize_eq (not_lt.1 hle)] at h
    exact absurd (congrArg Prod.fst h) (by simp)
  · exact serialize_of_lt

theorem take_serialize {buf : Bytes} (h : m.size ≤ buf.length) :
    (m.serialize buf).2.take m.size = m.wire := by
  rw [serialize_eq h]
  exact List.take_left' (length_wire m)

/-- The serialization of a parsed message is the datagram that it was parsed from exactly when that
has the shortest length field. -/
theorem wire_eq_iff {b : Bytes} (h : parse b = some m) : m.wire = b ↔ m.ShortestAddrLen b := by
  obtain ⟨hwf, V, hV, rfl⟩ := exists_encodes_of_parse h
  have hlen := toNat_addrLen hwf
  have hvarint : V = varint m.addrLen ↔
      ∀ V', VarintEncodes V' m.addr.utf8ByteSize → V.length ≤ V'.length := by
    rw [← hlen] at hV ⊢
    exact hV.eq_varint_iff
  have hwire : m.wire = m.fixedHeader ++ V ++ utf8Bytes m.addr ++ m.data ↔
      V = varint m.addrLen := by
    rw [wire, List.append_left_inj, List.append_left_inj, List.append_right_inj, eq_comm]
  have hdrop : (m.fixedHeader ++ V ++ utf8Bytes m.addr ++ m.data).drop 8 =
      V ++ (utf8Bytes m.addr ++ m.data) := by
    simp only [List.append_assoc]
    exact List.drop_left' (length_fixedHeader m)
  rw [hwire, hvarint]
  constructor
  · intro hmin
    exact ⟨V, _, hdrop, hV, hmin⟩
  · rintro ⟨V', rest, hdrop', hV', hmin⟩
    have hget := hV.getVarint_append (utf8Bytes m.addr ++ m.data)
    rw [← hdrop, hdrop', hV'.getVarint_append rest] at hget
    have hlength : V'.length = V.length := congrArg Prod.snd (Option.some.inj hget)
    rw [← hlength]
    exact hmin

/-- **Encoding and decoding are mutually inverse.** A message is serialized into every buffer that
is long enough, changing only as many bytes as the message has, and parsed back from these. A parsed
message has the same serialization again, which is the datagram itself if that has the shortest
length field. -/
theorem serialize_parse :
    (∀ m : UdpMessage, m.WellFormed → ∀ buf : Bytes,
      (m.serialize buf = (none, buf) ↔ buf.length < m.size) ∧
        (m.size ≤ buf.length → (m.serialize buf).1 = some m.size ∧
          (m.serialize buf).2.length = buf.length ∧
          (m.serialize buf).2.drop m.size = buf.drop m.size ∧
          parse ((m.serialize buf).2.take m.size) = some m)) ∧
      ∀ (b : Bytes) (m : UdpMessage), parse b = some m → m.size ≤ b.length ∧
        ∀ buf : Bytes, m.size ≤ buf.length →
          parse ((m.serialize buf).2.take m.size) = some m ∧
            ((m.serialize buf).2.take m.size = b ↔ m.ShortestAddrLen b) := by
  constructor
  · intro m hwf buf
    refine ⟨serialize_eq_none_iff, fun hle => ?_⟩
    rw [take_serialize hle, serialize_eq hle]
    refine ⟨rfl, ?_, List.drop_left' (length_wire m), parse_wire hwf⟩
    rw [List.length_append, length_wire, List.length_drop]
    omega
  · intro b m hb
    obtain ⟨hwf, V, hV, hbytes⟩ := exists_encodes_of_parse hb
    have hlen := toNat_addrLen hwf
    have hmin : varintLen m.addrLen ≤ V.length := (hlen.symm ▸ hV : VarintEncodes V _).varintLen_le
    refine ⟨?_, fun buf hle => ?_⟩
    · rw [hbytes, size, headerSize]
      simp only [List.length_append, length_fixedHeader, length_utf8Bytes]
      omega
    · rw [take_serialize hle]
      exact ⟨parse_wire hwf, wire_eq_iff hb⟩

end UdpMessage

end Rsteria.Protocol
