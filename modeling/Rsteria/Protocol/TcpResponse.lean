import Rsteria.Protocol.Varint

/-!
# The header that answers a TCP request

The server answers a TCP request with `status | varint(msg_len) | msg | varint(pad_len) | pad` and
continues with application data on the same stream. `parseTcpResponse` is the parser of
`src/protocol.rs`: it is run again on every longer prefix of the stream, answers `needMore` until
the header is complete, `done` with the number of bytes that belong to the header, or `invalid` when
a length exceeds its guard.

The reader of the stream relies on one property: once the answer is `done` or `invalid`, it does not
change when more bytes arrive (`parseTcpResponse_append`). Together with `parseTcpResponse_prefix`
this fixes the answer on every prefix of a stream that starts with a complete header.

## Main definitions

* `Protocol.TcpResponseParse`, `Protocol.parseTcpResponse`.
* `Protocol.ParsesTo` : the ways in which the parser comes to its answer.
* `Protocol.IsTcpResponse` : the grammar of a header, with length fields of any width.

## Main results

* `Protocol.parseTcpResponse_append` : an answer is stable under extension.
* `Protocol.length_le_of_needMore` : more bytes are asked for only while the buffer is short.
* `Protocol.parseTcpResponse_prefix` : the answers on the prefixes of `H ++ A`.
* `Protocol.parseTcpResponse_grammar` : the parser accepts exactly its grammar.
-/

namespace Rsteria.Protocol

open Buffer

/-- Guard on the length of the message of a response, and on the length of an address. -/
def maxMessageLength : UInt64 := 2048

/-- Guard on the length of the padding of a response. -/
def maxPaddingLength : UInt64 := 4096

theorem le_maxMessageLength_iff {m : UInt64} : m ≤ maxMessageLength ↔ m.toNat ≤ 2048 :=
  UInt64.le_iff_toNat_le

theorem le_maxPaddingLength_iff {p : UInt64} : p ≤ maxPaddingLength ↔ p.toNat ≤ 4096 :=
  UInt64.le_iff_toNat_le

/-- Result of parsing a response header from a byte buffer. -/
inductive TcpResponseParse where
  /-- More bytes are needed before the full header is available. -/
  | needMore
  /-- Fully parsed: `ok` says that the status byte is 0, and `consumed` bytes belong to the
  header. -/
  | done (ok : Bool) (consumed : ℕ)
  /-- A length field exceeded its guard. -/
  | invalid
  deriving DecidableEq, Repr

/-- Try to parse `status(1) | varint(msg_len) | msg | varint(pad_len) | pad` from `buf`. -/
def parseTcpResponse (buf : Bytes) : TcpResponseParse :=
  match buf[0]? with
  | none => .needMore
  | some status =>
    match (getFrom buf 1).bind getVarint with
    | none => .needMore
    | some (msgLen, n) =>
      if msgLen > maxMessageLength then .invalid
      else
        let pos := 1 + (n + msgLen.toNat)
        if buf.length < pos then .needMore
        else
          match (getFrom buf pos).bind getVarint with
          | none => .needMore
          | some (padLen, n) =>
            if padLen > maxPaddingLength then .invalid
            else
              let pos := pos + (n + padLen.toNat)
              if buf.length < pos then .needMore
              else .done (status == 0) pos

/-- Reading a length field past the end of the buffer is reading it from nothing. -/
private theorem bind_getVarint (b : Bytes) (pos : ℕ) :
    (getFrom b pos).bind getVarint = getVarint (b.drop pos) := by
  unfold getFrom
  split_ifs with h
  · rfl
  · rw [List.drop_of_length_le (by omega)]
    rfl

/-- A length field that was read is read again, unchanged, from a longer buffer. -/
theorem getVarint_drop_append {b : Bytes} {pos n : ℕ} {v : UInt64}
    (h : getVarint (b.drop pos) = some (v, n)) (e : Bytes) :
    getVarint ((b ++ e).drop pos) = some (v, n) := by
  have hpos : pos ≤ b.length := by
    have hn := getVarint_pos h
    have hle := (getVarint_bounds h).2.1
    rw [List.length_drop] at hle
    omega
  rw [List.drop_append_of_le_length hpos]
  exact getVarint_append h e

/-- The ways in which the parser comes to its answer. -/
inductive ParsesTo (b : Bytes) : TcpResponseParse → Prop where
  | noStatus (hs : b[0]? = none) : ParsesTo b .needMore
  | noMsgLen (hm : getVarint (b.drop 1) = none) : ParsesTo b .needMore
  | msgLenExceeds {status : UInt8} {m : UInt64} {n : ℕ} (hs : b[0]? = some status)
      (hm : getVarint (b.drop 1) = some (m, n)) (hguard : maxMessageLength < m) :
      ParsesTo b .invalid
  | shortMsg {m : UInt64} {n : ℕ} (hm : getVarint (b.drop 1) = some (m, n))
      (hguard : m ≤ maxMessageLength) (hmsg : b.length < 1 + (n + m.toNat)) : ParsesTo b .needMore
  | noPadLen {m : UInt64} {n : ℕ} (hm : getVarint (b.drop 1) = some (m, n))
      (hguard : m ≤ maxMessageLength) (hp : getVarint (b.drop (1 + (n + m.toNat))) = none) :
      ParsesTo b .needMore
  | padLenExceeds {status : UInt8} {m p : UInt64} {n n' : ℕ} (hs : b[0]? = some status)
      (hm : getVarint (b.drop 1) = some (m, n)) (hguard : m ≤ maxMessageLength)
      (hp : getVarint (b.drop (1 + (n + m.toNat))) = some (p, n'))
      (hguard' : maxPaddingLength < p) : ParsesTo b .invalid
  | shortPad {m p : UInt64} {n n' : ℕ} (hm : getVarint (b.drop 1) = some (m, n))
      (hguard : m ≤ maxMessageLength)
      (hp : getVarint (b.drop (1 + (n + m.toNat))) = some (p, n')) (hguard' : p ≤ maxPaddingLength)
      (hpad : b.length < 1 + (n + m.toNat) + (n' + p.toNat)) : ParsesTo b .needMore
  | done {status : UInt8} {m p : UInt64} {n n' : ℕ} (hs : b[0]? = some status)
      (hm : getVarint (b.drop 1) = some (m, n)) (hguard : m ≤ maxMessageLength)
      (hp : getVarint (b.drop (1 + (n + m.toNat))) = some (p, n')) (hguard' : p ≤ maxPaddingLength)
      (hpad : 1 + (n + m.toNat) + (n' + p.toNat) ≤ b.length) :
      ParsesTo b (.done (status == 0) (1 + (n + m.toNat) + (n' + p.toNat)))

theorem parsesTo_parseTcpResponse (b : Bytes) : ParsesTo b (parseTcpResponse b) := by
  unfold parseTcpResponse
  simp only [bind_getVarint]
  split
  · rename_i hs
    exact .noStatus hs
  · rename_i status hs
    split
    · rename_i hm
      exact .noMsgLen hm
    · rename_i m n hm
      split_ifs with hguard hmsg
      · exact .msgLenExceeds hs hm hguard
      · exact .shortMsg hm (UInt64.not_lt.1 hguard) hmsg
      · have hguard : m ≤ maxMessageLength := UInt64.not_lt.1 hguard
        split
        · rename_i hp
          exact .noPadLen hm hguard hp
        · rename_i p n' hp
          split_ifs with hguard' hpad
          · exact .padLenExceeds hs hm hguard hp hguard'
          · exact .shortPad hm hguard hp (UInt64.not_lt.1 hguard') hpad
          · exact .done hs hm hguard hp (UInt64.not_lt.1 hguard') (not_lt.1 hpad)

/-- When the parser accepts: both length fields are complete and within their guards, and so are
the bytes they announce. -/
theorem parseTcpResponse_eq_done_iff {b : Bytes} {ok : Bool} {c : ℕ} :
    parseTcpResponse b = .done ok c ↔
      ∃ status m n p n', b[0]? = some status ∧ getVarint (b.drop 1) = some (m, n) ∧
        m ≤ maxMessageLength ∧ getVarint (b.drop (1 + (n + m.toNat))) = some (p, n') ∧
          p ≤ maxPaddingLength ∧ c = 1 + (n + m.toNat) + (n' + p.toNat) ∧ c ≤ b.length ∧
            ok = (status == 0) := by
  constructor
  · intro h
    have hb := parsesTo_parseTcpResponse b
    rw [h] at hb
    cases hb with
    | done hs hm hguard hp hguard' hpad =>
      exact ⟨_, _, _, _, _, hs, hm, hguard, hp, hguard', rfl, hpad, rfl⟩
  · rintro ⟨status, m, n, p, n', hs, hm, hguard, hp, hguard', rfl, hlen, rfl⟩
    have hmsg : ¬ b.length < 1 + (n + m.toNat) := by omega
    unfold parseTcpResponse
    simp only [bind_getVarint, hs, hm, hp, gt_iff_lt, UInt64.not_lt.2 hguard,
      UInt64.not_lt.2 hguard', not_lt.2 hlen, hmsg, if_false]

/-- When the parser rejects: a complete length field exceeds its guard. -/
theorem parseTcpResponse_eq_invalid_iff {b : Bytes} :
    parseTcpResponse b = .invalid ↔
      ∃ status m n, b[0]? = some status ∧ getVarint (b.drop 1) = some (m, n) ∧
        (maxMessageLength < m ∨ m ≤ maxMessageLength ∧ ∃ p n',
          getVarint (b.drop (1 + (n + m.toNat))) = some (p, n') ∧ maxPaddingLength < p) := by
  constructor
  · intro h
    have hb := parsesTo_parseTcpResponse b
    rw [h] at hb
    cases hb with
    | msgLenExceeds hs hm hguard => exact ⟨_, _, _, hs, hm, .inl hguard⟩
    | padLenExceeds hs hm hguard hp hguard' =>
      exact ⟨_, _, _, hs, hm, .inr ⟨hguard, _, _, hp, hguard'⟩⟩
  · rintro ⟨status, m, n, hs, hm, hguard | ⟨hguard, p, n', hp, hguard'⟩⟩
    · unfold parseTcpResponse
      simp only [bind_getVarint, hs, hm, gt_iff_lt, hguard, if_true]
    · have hmsg : ¬ b.length < 1 + (n + m.toNat) := by
        have hn := getVarint_pos hp
        have hle := (getVarint_bounds hp).2.1
        rw [List.length_drop] at hle
        omega
      unfold parseTcpResponse
      simp only [bind_getVarint, hs, hm, hp, gt_iff_lt, UInt64.not_lt.2 hguard, hguard', hmsg,
        if_true, if_false]

/-- **The answer is stable under extension.** Once the header is complete or a guard is exceeded,
further bytes do not change the result. -/
theorem parseTcpResponse_append {b : Bytes} (h : parseTcpResponse b ≠ .needMore) (e : Bytes) :
    parseTcpResponse (b ++ e) = parseTcpResponse b := by
  have hstatus {x : UInt8} (hx : b[0]? = some x) : (b ++ e)[0]? = some x := by
    obtain ⟨hlt, -⟩ := List.getElem?_eq_some_iff.1 hx
    rw [List.getElem?_append_left hlt, hx]
  cases hb : parseTcpResponse b with
  | needMore => exact absurd hb h
  | done ok c =>
    obtain ⟨status, m, n, p, n', hs, hm, hguard, hp, hguard', hc, hlen, hok⟩ :=
      parseTcpResponse_eq_done_iff.1 hb
    exact parseTcpResponse_eq_done_iff.2 ⟨status, m, n, p, n', hstatus hs,
      getVarint_drop_append hm e, hguard, getVarint_drop_append hp e, hguard', hc,
      hlen.trans (by rw [List.length_append]; omega), hok⟩
  | invalid =>
    obtain ⟨status, m, n, hs, hm, hcase⟩ := parseTcpResponse_eq_invalid_iff.1 hb
    refine parseTcpResponse_eq_invalid_iff.2 ⟨status, m, n, hstatus hs,
      getVarint_drop_append hm e, hcase.imp_right ?_⟩
    rintro ⟨hguard, p, n', hp, hguard'⟩
    exact ⟨hguard, p, n', getVarint_drop_append hp e, hguard'⟩

theorem parseTcpResponse_done_le {b : Bytes} {ok : Bool} {c : ℕ}
    (h : parseTcpResponse b = .done ok c) : c ≤ b.length := by
  obtain ⟨_, _, _, _, _, -, -, -, -, -, -, hlen, -⟩ := parseTcpResponse_eq_done_iff.1 h
  exact hlen

/-- A buffer that does not begin with a length field is shorter than the longest one. -/
theorem length_lt_of_getVarint_none {b : Bytes} (h : getVarint b = none) : b.length < 8 := by
  cases b with
  | nil => exact Nat.zero_lt_succ 7
  | cons first rest =>
    have hlt := getVarint_eq_none_iff.1 h first rest rfl
    rcases varintWidth_cases first with hw | hw | hw | hw <;> omega

/-- **More bytes are asked for only while the buffer is short**: shorter than the status, two length
fields of 8 bytes each, and the longest message and padding that the guards let through. -/
theorem length_le_of_needMore {b : Bytes} (h : parseTcpResponse b = .needMore) :
    b.length ≤ 6160 := by
  have hb := parsesTo_parseTcpResponse b
  rw [h] at hb
  cases hb with
  | noStatus hs =>
    rw [List.getElem?_eq_none_iff] at hs
    omega
  | noMsgLen hm =>
    have hlt := length_lt_of_getVarint_none hm
    rw [List.length_drop] at hlt
    omega
  | shortMsg hm hguard hmsg =>
    have hn := (getVarint_bounds hm).1
    have hle := le_maxMessageLength_iff.1 hguard
    omega
  | noPadLen hm hguard hp =>
    have hn := (getVarint_bounds hm).1
    have hle := le_maxMessageLength_iff.1 hguard
    have hlt := length_lt_of_getVarint_none hp
    rw [List.length_drop] at hlt
    omega
  | shortPad hm hguard hp hguard' hpad =>
    have hn := (getVarint_bounds hm).1
    have hn' := (getVarint_bounds hp).1
    have hle := le_maxMessageLength_iff.1 hguard
    have hle' := le_maxPaddingLength_iff.1 hguard'
    omega

/-- Before a complete header has arrived the answer on a prefix of the stream is `needMore`, and
from then on it is the header's own answer. -/
theorem parseTcpResponse_prefix {q H A : Bytes} {ok : Bool}
    (hH : parseTcpResponse H = .done ok H.length) (hq : q <+: H ++ A) :
    parseTcpResponse q = .needMore ∧ q.length < H.length ∨
      parseTcpResponse q = .done ok H.length ∧ H.length ≤ q.length := by
  obtain ⟨e, he⟩ := hq
  have hHA : parseTcpResponse (q ++ e) = .done ok H.length := by
    rw [he, parseTcpResponse_append (by simp [hH]), hH]
  by_cases hq : parseTcpResponse q = .needMore
  · refine .inl ⟨hq, not_le.1 fun hlen => ?_⟩
    obtain ⟨t, rfl⟩ := List.prefix_of_prefix_length_le ⟨A, rfl⟩ ⟨e, he⟩ hlen
    rw [parseTcpResponse_append (by simp [hH]), hH] at hq
    simp at hq
  · rw [parseTcpResponse_append hq] at hHA
    exact .inr ⟨hHA, parseTcpResponse_done_le hHA⟩

/-! ### The grammar of a header -/

/-- A complete header: `status(1) | varint(m) | m bytes | varint(p) | p bytes`, with any width of
the two length fields and both lengths within their guards; `ok` says that the status is 0. -/
def IsTcpResponse (ok : Bool) (header : Bytes) : Prop :=
  ∃ status M msg P pad, header = status :: (M ++ msg ++ P ++ pad) ∧
    VarintEncodes M msg.length ∧ msg.length ≤ 2048 ∧
    VarintEncodes P pad.length ∧ pad.length ≤ 4096 ∧ ok = (status == 0)

/-- The field for the length of the message is complete and exceeds its guard. -/
def MsgLenExceeds (b : Bytes) : Prop :=
  ∃ status M m rest, b = status :: (M ++ rest) ∧ VarintEncodes M m ∧ 2048 < m

/-- The message and the field for the length of the padding are complete, and the padding exceeds
its guard. -/
def PadLenExceeds (b : Bytes) : Prop :=
  ∃ status M msg P p rest, b = status :: (M ++ msg ++ P ++ rest) ∧ VarintEncodes M msg.length ∧
    VarintEncodes P p ∧ 4096 < p

/-- What stands behind a length field and the bytes that it announces. -/
theorem drop_field (status : UInt8) (V data rest : Bytes) :
    (status :: (V ++ data ++ rest)).drop (1 + (V.length + data.length)) = rest := by
  rw [Nat.add_comm, ← List.length_append, List.drop_succ_cons]
  exact List.drop_left

/-- The parser accepts a header of the grammar, whatever follows it. -/
theorem parseTcpResponse_of_isTcpResponse {header : Bytes} {ok : Bool} (h : IsTcpResponse ok header)
    (rest : Bytes) : parseTcpResponse (header ++ rest) = .done ok header.length := by
  obtain ⟨status, M, msg, P, pad, rfl, hM, hmsg, hP, hpad, rfl⟩ := h
  have hm := hM.toNat_ofNat
  have hp := hP.toNat_ofNat
  have hdrop : (status :: (M ++ msg ++ P ++ pad) ++ rest).drop (1 + (M.length + msg.length)) =
      P ++ (pad ++ rest) := by
    rw [List.cons_append, List.append_assoc, List.append_assoc]
    exact drop_field status M msg _
  refine parseTcpResponse_eq_done_iff.2 ⟨status, .ofNat msg.length, M.length, .ofNat pad.length,
    P.length, rfl, ?_, le_maxMessageLength_iff.2 (hm.trans_le hmsg), ?_,
    le_maxPaddingLength_iff.2 (hp.trans_le hpad), ?_, ?_, rfl⟩
  · rw [List.cons_append, List.drop_one, List.tail_cons]
    simp only [List.append_assoc]
    exact hM.getVarint_append _
  · rw [hm, hdrop]
    exact hP.getVarint_append _
  · rw [hm, hp]
    simp only [List.length_cons, List.length_append]
    omega
  · rw [List.length_append]
    omega

/-- A length field that was read, and the bytes that it announces. -/
theorem exists_field {b : Bytes} {v : UInt64} {n : ℕ} (h : getVarint b = some (v, n))
    (hlen : n + v.toNat ≤ b.length) :
    ∃ V data rest, b = V ++ data ++ rest ∧ V.length = n ∧ data.length = v.toNat ∧
      VarintEncodes V data.length := by
  obtain ⟨V, rest, rfl, rfl, hV⟩ := getVarint_eq_some_iff.1 h
  rw [List.length_append] at hlen
  have hdata : (rest.take v.toNat).length = v.toNat := by
    rw [List.length_take]
    omega
  refine ⟨V, rest.take v.toNat, rest.drop v.toNat, ?_, rfl, hdata, hdata.symm ▸ hV⟩
  rw [List.append_assoc, List.take_append_drop]

/-- The header that the parser accepts has the form of the grammar. -/
theorem isTcpResponse_of_done {b : Bytes} {ok : Bool} {c : ℕ}
    (h : parseTcpResponse b = .done ok c) : IsTcpResponse ok (b.take c) := by
  obtain ⟨status, m, n, p, n', hs, hm, hguard, hp, hguard', rfl, hlen, rfl⟩ :=
    parseTcpResponse_eq_done_iff.1 h
  cases b with
  | nil => simp at hs
  | cons first t =>
    obtain rfl : first = status := Option.some.inj hs
    rw [List.length_cons] at hlen
    rw [List.drop_one, List.tail_cons] at hm
    obtain ⟨M, msg, t', rfl, rfl, hmsg, hM⟩ := exists_field hm (by omega)
    rw [← hmsg, drop_field] at hp
    simp only [List.length_append] at hlen
    obtain ⟨P, pad, rest, rfl, rfl, hpad, hP⟩ := exists_field hp (by omega)
    refine ⟨first, M, msg, P, pad, ?_, hM, hmsg ▸ le_maxMessageLength_iff.1 hguard, hP,
      hpad ▸ le_maxPaddingLength_iff.1 hguard', rfl⟩
    have hsplit : first :: (M ++ msg ++ (P ++ pad ++ rest)) =
        first :: (M ++ msg ++ P ++ pad) ++ rest := by
      simp only [List.cons_append, List.append_assoc]
    rw [hsplit]
    refine List.take_left' ?_
    simp only [List.length_cons, List.length_append, ← hmsg, ← hpad]
    omega

/-- When the parser accepts. -/
theorem parseTcpResponse_done_iff_isTcpResponse {b : Bytes} {ok : Bool} {c : ℕ} :
    parseTcpResponse b = .done ok c ↔ c ≤ b.length ∧ IsTcpResponse ok (b.take c) := by
  constructor
  · intro h
    exact ⟨parseTcpResponse_done_le h, isTcpResponse_of_done h⟩
  · rintro ⟨hc, hheader⟩
    have hparse := parseTcpResponse_of_isTcpResponse hheader (b.drop c)
    rwa [List.take_append_drop, List.length_take_of_le hc] at hparse

/-- A header that was incomplete ends in the bytes that complete it. -/
theorem lt_of_needMore_of_done {b e : Bytes} {ok : Bool} {c : ℕ}
    (hb : parseTcpResponse b = .needMore) (h : parseTcpResponse (b ++ e) = .done ok c) :
    b.length < c := by
  by_contra hle
  obtain ⟨-, hheader⟩ := parseTcpResponse_done_iff_isTcpResponse.1 h
  rw [List.take_append_of_le_length (not_lt.1 hle)] at hheader
  have hdone := parseTcpResponse_done_iff_isTcpResponse.2 ⟨not_lt.1 hle, hheader⟩
  simp [hb] at hdone

/-- When the parser rejects. -/
theorem parseTcpResponse_invalid_iff_exceeds {b : Bytes} :
    parseTcpResponse b = .invalid ↔ MsgLenExceeds b ∨ PadLenExceeds b := by
  rw [parseTcpResponse_eq_invalid_iff]
  constructor
  · rintro ⟨status, m, n, hs, hm, hcase⟩
    cases b with
    | nil => simp at hs
    | cons first t =>
      rw [List.drop_one, List.tail_cons] at hm
      rcases hcase with hguard | ⟨hguard, p, n', hp, hguard'⟩
      · obtain ⟨M, rest, rfl, -, hM⟩ := getVarint_eq_some_iff.1 hm
        exact .inl ⟨first, M, m.toNat, rest, rfl, hM, UInt64.lt_iff_toNat_lt.1 hguard⟩
      · have hle := (getVarint_bounds hp).2.1
        have hpos := getVarint_pos hp
        rw [List.length_drop, List.length_cons] at hle
        obtain ⟨M, msg, t', rfl, rfl, hmsg, hM⟩ := exists_field hm (by omega)
        rw [← hmsg, drop_field] at hp
        obtain ⟨P, rest, rfl, -, hP⟩ := getVarint_eq_some_iff.1 hp
        exact .inr ⟨first, M, msg, P, p.toNat, rest, by simp only [List.append_assoc], hM, hP,
          UInt64.lt_iff_toNat_lt.1 hguard'⟩
  · rintro (⟨status, M, m, rest, rfl, hM, hguard⟩ |
      ⟨status, M, msg, P, p, rest, rfl, hM, hP, hguard⟩)
    · have hm := hM.toNat_ofNat
      exact ⟨status, .ofNat m, M.length, rfl, hM.getVarint_append rest,
        .inl (UInt64.lt_iff_toNat_lt.2 (hguard.trans_eq hm.symm))⟩
    · have hm := hM.toNat_ofNat
      have hp := hP.toNat_ofNat
      refine ⟨status, .ofNat msg.length, M.length, rfl, ?_, ?_⟩
      · rw [List.drop_one, List.tail_cons]
        simp only [List.append_assoc]
        exact hM.getVarint_append _
      · by_cases hmsg : maxMessageLength < UInt64.ofNat msg.length
        · exact .inl hmsg
        · refine .inr ⟨UInt64.not_lt.1 hmsg, .ofNat p, P.length, ?_,
            UInt64.lt_iff_toNat_lt.2 (hguard.trans_eq hp.symm)⟩
          rw [hm, List.append_assoc, drop_field]
          exact hP.getVarint_append rest

/-- **The parser accepts exactly its grammar.** It is done with the length of a header in front of
the buffer, rejects the buffer if a complete length field exceeds its guard, and needs more bytes
otherwise. An answer is the same on every longer buffer, and on every proper prefix of a complete
header more bytes are needed. -/
theorem parseTcpResponse_grammar (b : Bytes) :
    (∀ ok c, parseTcpResponse b = .done ok c ↔ c ≤ b.length ∧ IsTcpResponse ok (b.take c)) ∧
      (parseTcpResponse b = .invalid ↔ MsgLenExceeds b ∨ PadLenExceeds b) ∧
      (parseTcpResponse b = .needMore ↔
        (∀ ok c, c ≤ b.length → ¬ IsTcpResponse ok (b.take c)) ∧
          ¬ MsgLenExceeds b ∧ ¬ PadLenExceeds b) ∧
      (∀ e, parseTcpResponse b ≠ .needMore → parseTcpResponse (b ++ e) = parseTcpResponse b) ∧
      ∀ ok c, parseTcpResponse b = .done ok c →
        ∀ q, q <+: b.take c → q ≠ b.take c → parseTcpResponse q = .needMore := by
  refine ⟨fun ok c => parseTcpResponse_done_iff_isTcpResponse,
    parseTcpResponse_invalid_iff_exceeds, ?_, fun e h => parseTcpResponse_append h e, ?_⟩
  · constructor
    · intro hmore
      refine ⟨fun ok c hc hheader => ?_, not_or.1 fun hexceeds => ?_⟩
      · have hdone := parseTcpResponse_done_iff_isTcpResponse.2 ⟨hc, hheader⟩
        simp [hmore] at hdone
      · have hinvalid := parseTcpResponse_invalid_iff_exceeds.2 hexceeds
        simp [hmore] at hinvalid
    · rintro ⟨hheader, hmsg, hpad⟩
      cases hb : parseTcpResponse b with
      | needMore => rfl
      | done ok c =>
        obtain ⟨hc, hheader'⟩ := parseTcpResponse_done_iff_isTcpResponse.1 hb
        exact absurd hheader' (hheader ok c hc)
      | invalid =>
        rcases parseTcpResponse_invalid_iff_exceeds.1 hb with h | h
        · exact absurd h hmsg
        · exact absurd h hpad
  · intro ok c hdone q hq hne
    obtain ⟨hc, hheader⟩ := parseTcpResponse_done_iff_isTcpResponse.1 hdone
    have hH := parseTcpResponse_of_isTcpResponse hheader []
    rw [List.append_nil] at hH
    rcases parseTcpResponse_prefix hH ((List.append_nil (b.take c)).symm ▸ hq) with
      ⟨hmore, -⟩ | ⟨-, hlen⟩
    · exact hmore
    · exact absurd (hq.eq_of_length_le hlen) hne

end Rsteria.Protocol
