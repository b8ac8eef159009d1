import Rsteria.Lib.Pieces
import Rsteria.Protocol.UdpMessage

/-!
# Fragmenting a UDP message

`fragUdpMessage` of `src/protocol.rs` splits a message that exceeds a size limit into fragments that
carry the same address and consecutive pieces of the payload. The fragment number and the number of
fragments are `u8`: the counter wraps and the count is truncated when there are more than 255
fragments, as in a build without overflow checks.

The loop runs over offsets; `fragUdpMessage_eq` lists its result by index, the fragment `i` being
`fragment m p k i` with the piece `i` of the payload cut into pieces of `p` bytes.

## Main definitions

* `Protocol.fragUdpMessage`.
* `Protocol.maxPayload`, `Protocol.fragCount`, `Protocol.fragment` : the room beside the header, the
  number of fragments, and the fragment with a given index.

## Main results

* `Protocol.fragUdpMessage_eq` : the fragments by index.
* `Protocol.flatMap_data_fragment` : their payloads concatenate to the payload.
* `Protocol.size_fragment_le`, `Protocol.fragment_wellFormed` : each of them fits the limit and can
  be carried.
* `Protocol.fragUdpMessage_partitions` : the fragments partition the payload within the limit.
* `Protocol.numbered_iff` : when the fragments are numbered faithfully.
-/

namespace Rsteria.Protocol

open Buffer Pieces

/-- The loop of `frag_udp_message`, from the offset `off` and the fragment number `fragId` on. -/
def fragLoop (m : UdpMessage) (maxPayload : ℕ) (hpos : 0 < maxPayload) (fragCount : UInt8)
    (off : ℕ) (fragId : UInt8) : List UdpMessage :=
  if h : off < m.data.length then
    let last := min (off + maxPayload) m.data.length
    { sessionId := m.sessionId
      packetId := m.packetId
      fragId := fragId
      fragCount := fragCount
      addr := m.addr
      data := slice m.data off last ⟨by omega, by omega⟩ } ::
      fragLoop m maxPayload hpos fragCount last (fragId + 1)
  else []
termination_by m.data.length - off

/-- Split a message into fragments no larger than `maxSize` bytes on the wire. The list is empty if
not even a header fits. -/
def fragUdpMessage (m : UdpMessage) (maxSize : ℕ) : List UdpMessage :=
  if m.size ≤ maxSize then [m]
  else
    let maxPayload := maxSize - m.headerSize
    if h : maxPayload = 0 then []
    else
      let fragCount := divCeil m.data.length maxPayload
      fragLoop m maxPayload (Nat.pos_of_ne_zero h) (.ofNat fragCount) 0 0

/-! ### The fragments by index -/

/-- The room for payload beside the header of `m`. -/
def maxPayload (m : UdpMessage) (maxSize : ℕ) : ℕ := maxSize - m.headerSize

/-- The number of fragments of `m` under the limit `maxSize`. -/
def fragCount (m : UdpMessage) (maxSize : ℕ) : ℕ := divCeil m.data.length (maxPayload m maxSize)

/-- The fragment with index `i` of `m`, in pieces of `p` bytes and numbered as one of `k`. -/
def fragment (m : UdpMessage) (p k i : ℕ) : UdpMessage where
  sessionId := m.sessionId
  packetId := m.packetId
  fragId := .ofNat i
  fragCount := .ofNat k
  addr := m.addr
  data := piece m.data p i

/-- The loop at the offset of piece `j` lists the fragments from `j` on. -/
private theorem fragLoop_eq (m : UdpMessage) {p : ℕ} (hp : 0 < p) (k j n : ℕ)
    (hn : divCeil (m.data.length - j * p) p = n) :
    fragLoop m p hp (.ofNat k) (min (j * p) m.data.length) (.ofNat j) =
      (List.range n).map fun i => fragment m p k (j + i) := by
  induction n generalizing j with
  | zero =>
    have hle := le_divCeil_mul (n := m.data.length - j * p) hp
    rw [hn, Nat.zero_mul] at hle
    rw [fragLoop, dif_neg (by omega)]
    rfl
  | succ n ih =>
    have hlt : j * p < m.data.length := by
      have := (lt_divCeil_iff hp 0).1 (hn.symm ▸ Nat.succ_pos n :
        0 < divCeil (m.data.length - j * p) p)
      omega
    have hnext : min (j * p + p) m.data.length = min ((j + 1) * p) m.data.length := by
      rw [Nat.succ_mul]
    have htail : divCeil (m.data.length - (j + 1) * p) p = n := by
      rw [divCeil_sub hp hlt, hnext] at hn
      rw [← Nat.succ_injective hn]
      congr 1
      omega
    have hpiece : (m.data.take (min ((j + 1) * p) m.data.length)).drop (j * p) =
        piece m.data p j := by
      rw [piece, List.drop_take, Nat.succ_mul, List.take_eq_take_iff, List.length_drop]
      omega
    rw [min_eq_left hlt.le, fragLoop, dif_pos hlt]
    simp only [hnext, slice_eq, hpiece]
    rw [show (UInt8.ofNat j + 1 : UInt8) = .ofNat (j + 1) from (UInt8.ofNat_add j 1).symm,
      ih (j + 1) htail, List.range_succ_eq_map, List.map_cons, List.map_map]
    simp only [fragment, Nat.add_zero, List.cons.injEq, true_and]
    refine List.map_congr_left fun i _ => ?_
    simp only [Function.comp_apply, Nat.succ_eq_add_one]
    rw [Nat.add_assoc j 1 i, Nat.add_comm 1 i]

/-- The fragments of a message that does not fit, listed by index. -/
theorem fragUdpMessage_eq {m : UdpMessage} {maxSize : ℕ} (hsize : maxSize < m.size)
    (hheader : m.headerSize < maxSize) :
    fragUdpMessage m maxSize = (List.range (fragCount m maxSize)).map
      (fragment m (maxPayload m maxSize) (fragCount m maxSize)) := by
  have h0 : maxSize - m.headerSize ≠ 0 := by omega
  have h := fragLoop_eq m (Nat.pos_of_ne_zero h0) (fragCount m maxSize) 0 (fragCount m maxSize)
    (by rw [Nat.zero_mul, Nat.sub_zero]; rfl)
  simp only [Nat.zero_mul, Nat.zero_min, Nat.zero_add] at h
  simp only [fragUdpMessage, not_le.2 hsize, if_false, h0, dite_false]
  exact h

theorem fragUdpMessage_of_size_le {m : UdpMessage} {maxSize : ℕ} (h : m.size ≤ maxSize) :
    fragUdpMessage m maxSize = [m] :=
  if_pos h

theorem fragUdpMessage_of_le_headerSize {m : UdpMessage} {maxSize : ℕ} (hsize : maxSize < m.size)
    (hheader : maxSize ≤ m.headerSize) : fragUdpMessage m maxSize = [] := by
  have h0 : maxSize - m.headerSize = 0 := by omega
  simp only [fragUdpMessage, not_le.2 hsize, if_false, h0, dite_true]

/-! ### What the fragments carry -/

section Fragments

variable {m : UdpMessage} {maxSize : ℕ}

theorem headerSize_fragment (m : UdpMessage) (p k i : ℕ) :
    (fragment m p k i).headerSize = m.headerSize :=
  rfl

/-- A fragment fits the limit. -/
theorem size_fragment_le (hheader : m.headerSize < maxSize) (k i : ℕ) :
    (fragment m (maxPayload m maxSize) k i).size ≤ maxSize := by
  have := length_piece_le m.data (maxPayload m maxSize) i
  rw [UdpMessage.size, headerSize_fragment]
  change m.headerSize + (piece m.data (maxPayload m maxSize) i).length ≤ maxSize
  rw [maxPayload] at this ⊢
  omega

/-- A fragment of a message that the format can carry is itself such a message. -/
theorem fragment_wellFormed (h : m.WellFormed) (hheader : m.headerSize < maxSize) (k : ℕ) {i : ℕ}
    (hi : i < fragCount m maxSize) : (fragment m (maxPayload m maxSize) k i).WellFormed where
  addr_pos := h.addr_pos
  addr_le := h.addr_le
  data_ne_nil := piece_ne_nil (by rw [maxPayload]; omega) hi

/-- The payloads of the fragments concatenate to the payload of the message. -/
theorem flatMap_data_fragment (hheader : m.headerSize < maxSize) (k : ℕ) :
    (List.range (fragCount m maxSize)).flatMap
      (fun i => (fragment m (maxPayload m maxSize) k i).data) = m.data :=
  flatMap_piece_divCeil (by rw [maxPayload]; omega)

/-- A message that does not fit has at least two fragments. -/
theorem two_le_fragCount (hsize : maxSize < m.size) (hheader : m.headerSize < maxSize) :
    2 ≤ fragCount m maxSize := by
  rw [fragCount, Nat.succ_le_iff, lt_divCeil_iff (by rw [maxPayload]; omega), Nat.one_mul,
    maxPayload]
  rw [UdpMessage.size] at hsize
  omega

/-- The fragment with a given index. -/
theorem getElem?_fragUdpMessage (hsize : maxSize < m.size) (hheader : m.headerSize < maxSize)
    {i : ℕ} {f : UdpMessage} (hf : (fragUdpMessage m maxSize)[i]? = some f) :
    i < fragCount m maxSize ∧ f = fragment m (maxPayload m maxSize) (fragCount m maxSize) i := by
  rw [fragUdpMessage_eq hsize hheader, List.getElem?_map, Option.map_eq_some_iff] at hf
  obtain ⟨j, hj, rfl⟩ := hf
  obtain ⟨hlt, heq⟩ := List.getElem?_eq_some_iff.1 hj
  rw [List.getElem_range] at heq
  rw [List.length_range] at hlt
  exact ⟨hlt, by rw [heq]⟩

theorem length_fragUdpMessage (hsize : maxSize < m.size) (hheader : m.headerSize < maxSize) :
    (fragUdpMessage m maxSize).length = fragCount m maxSize := by
  rw [fragUdpMessage_eq hsize hheader, List.length_map, List.length_range]

/-- The list is empty exactly when not even a header fits. -/
theorem fragUdpMessage_eq_nil_iff :
    fragUdpMessage m maxSize = [] ↔ maxSize < m.size ∧ maxSize ≤ m.headerSize := by
  constructor
  · intro hnil
    have hsize : maxSize < m.size := by
      by_contra hle
      rw [fragUdpMessage_of_size_le (Nat.le_of_not_lt hle)] at hnil
      exact absurd hnil (List.cons_ne_nil m [])
    refine ⟨hsize, ?_⟩
    by_contra hlt
    have htwo := two_le_fragCount hsize (Nat.lt_of_not_le hlt)
    rw [← length_fragUdpMessage hsize (Nat.lt_of_not_le hlt), hnil] at htwo
    exact absurd htwo (by simp)
  · rintro ⟨hsize, hheader⟩
    exact fragUdpMessage_of_le_headerSize hsize hheader

/-- The message is left whole exactly when it fits. -/
theorem fragUdpMessage_eq_singleton_iff : fragUdpMessage m maxSize = [m] ↔ m.size ≤ maxSize := by
  refine ⟨fun hsingle => ?_, fragUdpMessage_of_size_le⟩
  by_contra hlt
  have hsize := Nat.lt_of_not_le hlt
  rcases Nat.lt_or_ge m.headerSize maxSize with hheader | hheader
  · have htwo := two_le_fragCount hsize hheader
    rw [← length_fragUdpMessage hsize hheader, hsingle] at htwo
    exact absurd htwo (by simp)
  · rw [fragUdpMessage_of_le_headerSize hsize hheader] at hsingle
    exact absurd hsingle (List.cons_ne_nil m []).symm

end Fragments

/-! ### Fragmenting cuts the payload under the limit -/

/-- The fragments of a message cut its payload into as few messages as the limit allows. -/
structure Partitions (m : UdpMessage) (maxSize : ℕ) (frags : List UdpMessage) : Prop where
  fields_eq : ∀ f ∈ frags, f.sessionId = m.sessionId ∧ f.packetId = m.packetId ∧ f.addr = m.addr
  /-- The fragment number and the number of fragments are taken modulo 256. -/
  numbers_eq : ∀ i f, frags[i]? = some f →
    f.fragId = UInt8.ofNat i ∧ f.fragCount = UInt8.ofNat frags.length
  size_le : ∀ f ∈ frags, f.size ≤ maxSize
  data_ne_nil : ∀ f ∈ frags, f.data ≠ []
  flatMap_data : frags.flatMap UdpMessage.data = m.data
  /-- Every fragment but the last uses the limit. -/
  size_eq : ∀ i f, frags[i]? = some f → i + 1 < frags.length → f.size = maxSize
  /-- No other cut under the limit has fewer messages. -/
  shortest : ∀ fs : List UdpMessage, (∀ f ∈ fs, f.addr = m.addr ∧ f.size ≤ maxSize) →
    fs.flatMap UdpMessage.data = m.data → frags.length ≤ fs.length

/-- A message with the address of `m` that fits the limit has at most the payload of a fragment. -/
theorem length_data_le_maxPayload {m f : UdpMessage} {maxSize : ℕ} (haddr : f.addr = m.addr)
    (hsize : f.size ≤ maxSize) : f.data.length ≤ maxPayload m maxSize := by
  have hheader : f.headerSize = m.headerSize := by
    simp only [UdpMessage.headerSize, UdpMessage.addrLen, haddr]
  rw [UdpMessage.size, hheader] at hsize
  rw [maxPayload]
  omega

/-- **Fragmenting partitions the payload within the limit.** The list is empty if not even a header
fits, it is the message if that fits, and otherwise it cuts the payload into as few messages as the
limit allows. -/
theorem fragUdpMessage_partitions (m : UdpMessage) (maxSize : ℕ) :
    (fragUdpMessage m maxSize = [] ↔ maxSize < m.size ∧ maxSize ≤ m.headerSize) ∧
      (fragUdpMessage m maxSize = [m] ↔ m.size ≤ maxSize) ∧
      (maxSize < m.size → m.headerSize < maxSize →
        Partitions m maxSize (fragUdpMessage m maxSize)) := by
  refine ⟨fragUdpMessage_eq_nil_iff, fragUdpMessage_eq_singleton_iff, fun hsize hheader => ?_⟩
  have hpos : 0 < maxPayload m maxSize := Nat.sub_pos_of_lt hheader
  have hmem {f : UdpMessage} (hf : f ∈ fragUdpMessage m maxSize) : ∃ i < fragCount m maxSize,
      f = fragment m (maxPayload m maxSize) (fragCount m maxSize) i := by
    obtain ⟨i, hi⟩ := List.mem_iff_getElem?.1 hf
    exact ⟨i, getElem?_fragUdpMessage hsize hheader hi⟩
  have hlen := length_fragUdpMessage hsize hheader
  refine ⟨fun f hf => ?_, fun i f hf => ?_, fun f hf => ?_, fun f hf => ?_, ?_,
    fun i f hf hi => ?_, fun fs hfs hdata => ?_⟩
  · obtain ⟨i, -, rfl⟩ := hmem hf
    exact ⟨rfl, rfl, rfl⟩
  · obtain ⟨-, rfl⟩ := getElem?_fragUdpMessage hsize hheader hf
    rw [hlen]
    exact ⟨rfl, rfl⟩
  · obtain ⟨i, -, rfl⟩ := hmem hf
    exact size_fragment_le hheader _ i
  · obtain ⟨i, hi, rfl⟩ := hmem hf
    exact piece_ne_nil hpos hi
  · rw [fragUdpMessage_eq hsize hheader, List.flatMap_map]
    exact flatMap_data_fragment hheader _
  · obtain ⟨-, rfl⟩ := getElem?_fragUdpMessage hsize hheader hf
    rw [hlen, fragCount] at hi
    have hfull : (fragment m (maxPayload m maxSize) (fragCount m maxSize) i).data.length =
        maxPayload m maxSize := length_piece_of_succ_lt hpos hi
    rw [UdpMessage.size, headerSize_fragment, hfull, maxPayload]
    omega
  · have hparts : ∀ xs ∈ fs.map UdpMessage.data, xs.length ≤ maxPayload m maxSize := by
      intro xs hxs
      obtain ⟨f, hf, rfl⟩ := List.mem_map.1 hxs
      exact length_data_le_maxPayload (hfs f hf).1 (hfs f hf).2
    have hle := divCeil_length_flatten_le hpos hparts
    rw [← List.flatMap_def, hdata, List.length_map] at hle
    rw [hlen]
    exact hle

/-! ### Numbering the fragments -/

/-- The fragments are numbered faithfully: the fragment number and the number of fragments are
right, the counter does not overflow when it is increased after each of them, and the cast of their
number does not truncate it. -/
structure Numbered (m : UdpMessage) (maxSize : ℕ) : Prop where
  length_le : (fragUdpMessage m maxSize).length ≤ 255
  fragCount_eq : ∀ f ∈ fragUdpMessage m maxSize,
    f.fragCount.toNat = (fragUdpMessage m maxSize).length
  fragId_eq : ∀ (i : ℕ) (f : UdpMessage), (fragUdpMessage m maxSize)[i]? = some f →
    f.fragId.toNat = i
  no_overflow : ∀ f ∈ fragUdpMessage m maxSize, f.fragId.toNat + 1 < 2 ^ 8
  no_truncation : fragCount m maxSize < 2 ^ 8

/-- **When fragments are numbered faithfully.** The fragments of a message that does not fit are
numbered faithfully if and only if not even a header fits, so that there are none, or the payload
needs at most 255 of them. -/
theorem numbered_iff (m : UdpMessage) (maxSize : ℕ) (h : maxSize < m.size) :
    (fragUdpMessage m maxSize ≠ [] → Numbered m maxSize) ↔
      maxSize ≤ m.headerSize ∨ m.data.length ≤ 255 * (maxSize - m.headerSize) := by
  rcases Nat.lt_or_ge m.headerSize maxSize with hheader | hheader
  · have hlen := length_fragUdpMessage h hheader
    have hcount : fragCount m maxSize ≤ 255 ↔ m.data.length ≤ 255 * (maxSize - m.headerSize) :=
      divCeil_le_iff (Nat.sub_pos_of_lt hheader) 255
    have hne : fragUdpMessage m maxSize ≠ [] := by
      rw [Ne, fragUdpMessage_eq_nil_iff]
      exact fun hnil => absurd hheader (Nat.not_lt.2 hnil.2)
    constructor
    · intro hnumbered
      exact .inr (hcount.1 (hlen ▸ (hnumbered hne).length_le))
    · rintro (hle | hdata) -
      · exact absurd hheader (Nat.not_lt.2 hle)
      · have hle := hcount.2 hdata
        have hid {i : ℕ} {f : UdpMessage} (hf : (fragUdpMessage m maxSize)[i]? = some f) :
            i < 255 ∧ f.fragId.toNat = i ∧ f.fragCount.toNat = fragCount m maxSize := by
          obtain ⟨hi, rfl⟩ := getElem?_fragUdpMessage h hheader hf
          refine ⟨by omega, ?_, ?_⟩
          · exact UInt8.toNat_ofNat_of_lt' (show i < 256 by omega)
          · exact UInt8.toNat_ofNat_of_lt' (show fragCount m maxSize < 256 by omega)
        refine ⟨by omega, fun f hf => ?_, fun i f hf => (hid hf).2.1, fun f hf => ?_, by omega⟩
        · obtain ⟨i, hi⟩ := List.mem_iff_getElem?.1 hf
          rw [(hid hi).2.2, hlen]
        · obtain ⟨i, hi⟩ := List.mem_iff_getElem?.1 hf
          obtain ⟨hlt, heq, -⟩ := hid hi
          omega
  · exact iff_of_true (fun hne => absurd (fragUdpMessage_of_le_headerSize h hheader) hne)
      (.inl hheader)

/-- A payload of three bytes in three fragments. -/
theorem numbered_three_fragments :
    let m : UdpMessage := ⟨1, 7, 0, 1, "a:1", [1, 2, 3]⟩
    13 < m.size ∧ ((fragUdpMessage m 13 ≠ [] → Numbered m 13) ↔
      13 ≤ m.headerSize ∨ m.data.length ≤ 255 * (13 - m.headerSize)) :=
  ⟨by decide, numbered_iff _ 13 (by decide)⟩

/-- A payload of 256 bytes with room for one byte in a fragment: all of the 256 fragments say that
they are one of zero. -/
theorem fragments_of_zero :
    let m : UdpMessage := ⟨1, 7, 0, 1, "a:1", List.replicate 256 0⟩
    13 < m.size ∧ (fragUdpMessage m 13).length = 256 ∧
      (∀ f ∈ fragUdpMessage m 13, f.fragCount = 0) ∧
      ¬ (fragUdpMessage m 13 ≠ [] → Numbered m 13) := by
  intro m
  have hdata : m.data.length = 256 := List.length_replicate
  have hroom : m.headerSize = 12 := by decide
  have hsize : 13 < m.size := by
    rw [UdpMessage.size]
    omega
  have hheader : m.headerSize < 13 := by omega
  have hcount : fragCount m 13 = 256 := by rw [fragCount, maxPayload, hdata, hroom, divCeil]
  have hlen : (fragUdpMessage m 13).length = 256 :=
    (length_fragUdpMessage hsize hheader).trans hcount
  refine ⟨hsize, hlen, fun f hf => ?_, fun hnumbered => ?_⟩
  · obtain ⟨i, hi⟩ := List.mem_iff_getElem?.1 hf
    obtain ⟨-, rfl⟩ := getElem?_fragUdpMessage hsize hheader hi
    rw [fragment, hcount]
    rfl
  · have hne : fragUdpMessage m 13 ≠ [] := by
      intro hnil
      rw [hnil] at hlen
      exact absurd hlen (by simp)
    have hle := (hnumbered hne).length_le
    rw [hlen] at hle
    exact absurd hle (by simp)

end Rsteria.Protocol
