import Rsteria.Error
import Rsteria.Protocol.Reassembly

/-!
# Sending over a UDP session

`UdpSession::send` of `src/udp.rs` serializes the message and hands it to the connection; if the
connection finds it too large, it is fragmented to the current datagram limit and the fragments are
sent one by one. The connection is given by its answers: `sendDatagram` accepts or rejects a
datagram, `maxDatagramSize` is the current limit. The datagrams that the connection accepted are
part of the result.

With a limit `M` that is stable during the call (`Connection.Limited`), a successful call emits the
payload exactly when the message fits `M`, or a header fits and at most 255 fragments are needed
(`send_emits_iff`).

## Main definitions

* `Udp.Connection`, `Udp.send`.
* `Udp.Emits` : the datagrams of a successful call carry the payload.
* `Udp.Fits` : the message is carried whole, or in at most 255 fragments.

## Main results

* `Udp.returned_sentFragments` : a reassembler returns a fragmented packet from its fragments.
* `Udp.send_emits_iff` : when a successful call has emitted its payload.
-/

namespace Rsteria.Udp

open Protocol Pieces

/-- `MAX_DATAGRAM_FRAME_SIZE`. -/
def maxDatagramFrameSize : ℕ := 1200

/-- `MAX_UDP_SIZE`. -/
def maxUdpSize : ℕ := 4096

/-- Why the connection rejects a datagram: it exceeds the current limit, or another reason. The text
is what the error displays. -/
inductive SendDatagramError where
  | tooLarge (text : String)
  | other (text : String)
  deriving DecidableEq, Repr

/-- The text that an error displays. -/
def SendDatagramError.text : SendDatagramError → String
  | .tooLarge text => text
  | .other text => text

/-- The answers of the connection during a call. -/
structure Connection where
  sendDatagram : Bytes → Except SendDatagramError Unit
  maxDatagramSize : Option ℕ

/-- The message that a payload is sent in. -/
def message (id : UInt32) (data : Bytes) (addr : String) : UdpMessage where
  sessionId := id
  packetId := 0
  fragId := 0
  fragCount := 1
  addr := addr
  data := data

/-- Send fragments one by one, up to the first that is rejected: the result, and the datagrams that
the connection accepted. -/
def sendFragments (conn : Connection) : List UdpMessage → Except Error Unit × List Bytes
  | [] => (.ok (), [])
  | f :: fs =>
    match f.toDatagram f.size with
    | none => sendFragments conn fs
    | some datagram =>
      match conn.sendDatagram datagram with
      | .error e => (.error (.protocol ("send fragment: " ++ e.text)), [])
      | .ok () =>
        let (result, sent) := sendFragments conn fs
        (result, datagram :: sent)

/-- Fragment a message to the current datagram limit, with the packet id that was drawn, and send
each piece. -/
def sendFragmented (conn : Connection) (packetId : UInt16) (msg : UdpMessage) :
    Except Error Unit × List Bytes :=
  let max := conn.maxDatagramSize.getD maxDatagramFrameSize
  sendFragments conn (fragUdpMessage { msg with packetId := packetId } max)

/-- Send `data` to `addr` in the session `id`, fragmenting if the payload exceeds the datagram limit
of the connection: the result, and the datagrams that the connection accepted. The packet id is the
one drawn if the message is fragmented. -/
def send (conn : Connection) (id : UInt32) (packetId : UInt16) (data : Bytes) (addr : String) :
    Except Error Unit × List Bytes :=
  let msg := message id data addr
  match msg.toDatagram (max msg.size maxUdpSize) with
  | some datagram =>
    match conn.sendDatagram datagram with
    | .ok () => (.ok (), [datagram])
    | .error (.tooLarge _) => sendFragmented conn packetId msg
    | .error (.other text) => (.error (.protocol ("send datagram: " ++ text)), [])
  | none => sendFragmented conn packetId msg

/-- The connection has the datagram limit `M` during the call. -/
structure Connection.Limited (conn : Connection) (M : ℕ) : Prop where
  maxDatagramSize_eq : conn.maxDatagramSize = some M
  accepts : ∀ datagram : Bytes, datagram.length ≤ M → conn.sendDatagram datagram = .ok ()
  rejects : ∀ datagram : Bytes, M < datagram.length →
    ∃ text, conn.sendDatagram datagram = .error (.tooLarge text)

/-- If a call succeeded, a fresh reassembler that receives the datagrams returns exactly one
message, and it has the payload, the address and the session of the call. -/
def Emits (id : UInt32) (data : Bytes) (addr : String) (call : Except Error Unit × List Bytes) :
    Prop :=
  call.1 = .ok () → ∃ m, Defragger.default.received call.2 = [m] ∧
    m.data = data ∧ m.addr = addr ∧ m.sessionId = id

/-! ### What a call sends -/

section Limited

variable {conn : Connection} {M : ℕ} {id : UInt32} {packetId : UInt16} {data : Bytes}
  {addr : String}

/-- The message that is fragmented when it does not fit. -/
def packetMessage (id : UInt32) (packetId : UInt16) (data : Bytes) (addr : String) : UdpMessage :=
  { message id data addr with packetId := packetId }

/-- Fragments within the limit are all sent. -/
theorem sendFragments_eq (hconn : conn.Limited M) {fs : List UdpMessage}
    (hfs : ∀ f ∈ fs, f.size ≤ M) :
    sendFragments conn fs = (.ok (), fs.map UdpMessage.wire) := by
  induction fs with
  | nil => rfl
  | cons f fs ih =>
    have hf : f.wire.length ≤ M := by
      rw [UdpMessage.length_wire]
      exact hfs f List.mem_cons_self
    simp only [sendFragments, UdpMessage.toDatagram_eq le_rfl, hconn.accepts f.wire hf,
      ih fun x hx => hfs x (List.mem_cons_of_mem f hx), List.map_cons]

theorem send_of_fits (hconn : conn.Limited M) (h : (message id data addr).size ≤ M) :
    send conn id packetId data addr = (.ok (), [(message id data addr).wire]) := by
  simp only [send, UdpMessage.toDatagram_eq (le_max_left _ maxUdpSize),
    hconn.accepts _ ((UdpMessage.length_wire _).trans_le h)]

theorem send_of_not_fits (hconn : conn.Limited M) (h : M < (message id data addr).size) :
    send conn id packetId data addr =
      sendFragments conn (fragUdpMessage (packetMessage id packetId data addr) M) := by
  obtain ⟨text, hreject⟩ := hconn.rejects (message id data addr).wire
    (by rwa [UdpMessage.length_wire])
  simp only [send, UdpMessage.toDatagram_eq (le_max_left _ maxUdpSize), hreject, sendFragmented,
    hconn.maxDatagramSize_eq, Option.getD_some]
  rfl

/-- If not even a header fits, nothing is sent and the call succeeds. -/
theorem send_of_le_headerSize (hconn : conn.Limited M) (h : M < (message id data addr).size)
    (hheader : M ≤ (message id data addr).headerSize) :
    send conn id packetId data addr = (.ok (), []) := by
  have hempty : fragUdpMessage (packetMessage id packetId data addr) M = [] :=
    fragUdpMessage_of_le_headerSize h hheader
  rw [send_of_not_fits hconn h, hempty]
  rfl

/-- The fragments that are sent, by index. -/
def sentFragments (M : ℕ) (m : UdpMessage) : List UdpMessage :=
  (List.range (fragCount m M)).map (fragment m (maxPayload m M) (fragCount m M))

theorem send_of_headerSize_lt (hconn : conn.Limited M) (h : M < (message id data addr).size)
    (hheader : (message id data addr).headerSize < M) :
    send conn id packetId data addr =
      (.ok (), (sentFragments M (packetMessage id packetId data addr)).map UdpMessage.wire) := by
  have hfrags : fragUdpMessage (packetMessage id packetId data addr) M =
      sentFragments M (packetMessage id packetId data addr) := fragUdpMessage_eq h hheader
  rw [send_of_not_fits hconn h, hfrags]
  have hheader' : (packetMessage id packetId data addr).headerSize < M := hheader
  refine sendFragments_eq hconn fun f hf => ?_
  obtain ⟨i, -, rfl⟩ := List.mem_map.1 hf
  exact size_fragment_le hheader' _ i

theorem wellFormed_of_mem_sentFragments {m f : UdpMessage} (hm : m.WellFormed)
    (hheader : m.headerSize < M) (hf : f ∈ sentFragments M m) : f.WellFormed := by
  obtain ⟨i, hi, rfl⟩ := List.mem_map.1 hf
  exact fragment_wellFormed hm hheader _ (List.mem_range.1 hi)

/-! ### What the fragments of a call return -/

section Fragments

variable {m : UdpMessage} {d : Defragger}

/-- Up to 255 fragments are reassembled, if the state does not track a packet of the same id and
fragment count. -/
theorem returned_sentFragments (hsize : M < m.size) (hheader : m.headerSize < M)
    (hk : fragCount m M ≤ 255) (hd : ¬ (d.pktId = m.packetId ∧ d.frags.length = fragCount m M)) :
    d.returned (sentFragments M m) = [{ m with fragId := 0, fragCount := 1 }] ∧
      ((Mealy.final Defragger.feed d (sentFragments M m)).pktId = m.packetId ∧
        (Mealy.final Defragger.feed d (sentFragments M m)).frags.length = fragCount m M) ∧
      (Mealy.final Defragger.feed d (sentFragments M m)).Spent := by
  have h := Defragger.returned_family (Defragger.family_fragment hsize hheader hk) hd
  rw [Defragger.joined_fragment hheader] at h
  exact h

/-- The fragments of a packet with the id and the fragment count of the packet completed last are
lost. -/
theorem returned_sentFragments_of_spent (hsize : M < m.size) (hheader : m.headerSize < M)
    (hk : fragCount m M ≤ 255) (ht : d.pktId = m.packetId ∧ d.frags.length = fragCount m M)
    (hd : d.Spent) :
    d.returned (sentFragments M m) = [] ∧
      ((Mealy.final Defragger.feed d (sentFragments M m)).pktId = m.packetId ∧
        (Mealy.final Defragger.feed d (sentFragments M m)).frags.length = fragCount m M) ∧
      (Mealy.final Defragger.feed d (sentFragments M m)).Spent :=
  Defragger.returned_of_spent (Defragger.family_fragment hsize hheader hk) ht hd _
    fun _ hi => List.mem_range.1 hi

theorem returned_of_whole {ms : List UdpMessage} (h : ∀ x ∈ ms, x.fragCount ≤ 1)
    (d : Defragger) : d.returned ms = ms := by
  induction ms generalizing d with
  | nil => rfl
  | cons x ms ih =>
    have ih := ih (fun y hy => h y (List.mem_cons_of_mem x hy)) (d.feed x).2
    simp only [Defragger.returned, Mealy.outputs_cons] at ih ⊢
    rw [List.filterMap_cons, ih, Defragger.feed_of_whole (h x List.mem_cons_self)]
    rfl

/-- A fresh reassembler tracks no packet. -/
theorem default_not_tracks {pid : UInt16} {k : ℕ} (hk : 2 ≤ k) :
    ¬ (Defragger.default.pktId = pid ∧ Defragger.default.frags.length = k) := by
  rintro ⟨-, hzero⟩
  have h0 : (0 : ℕ) = k := hzero
  omega

/-- The first fragments of a packet with more than 255 of them are a family of their own, as many as
the truncated fragment count says. -/
private theorem family_truncated {k : ℕ} (m : UdpMessage) (p : ℕ) (h : 2 ≤ k % 256) :
    Defragger.Family (k % 256) (fragment m p k) where
  two_le := h
  le := by omega
  packetId _ _ := rfl
  fragCount _ _ := UInt8.toNat_ofNat'
  fragId i hi := UInt8.toNat_ofNat_of_lt' (by change i < 256; omega)

/-- More than 255 fragments are never reassembled: the fragment count is truncated, and either every
fragment is taken for a whole message, or the first fragments for the whole packet. -/
theorem returned_sentFragments_of_overflow (hheader : m.headerSize < M) (hk : 255 < fragCount m M)
    {out : UdpMessage} (hout : Defragger.default.returned (sentFragments M m) = [out]) :
    out.data ≠ m.data := by
  have hp : 0 < maxPayload m M := by
    rw [maxPayload]
    omega
  by_cases hc : fragCount m M % 256 ≤ 1
  · have hwhole : ∀ x ∈ sentFragments M m, x.fragCount ≤ 1 := by
      intro x hx
      obtain ⟨i, -, rfl⟩ := List.mem_map.1 hx
      rw [UInt8.le_iff_toNat_le]
      exact (UInt8.toNat_ofNat' (n := fragCount m M)).trans_le hc
    rw [returned_of_whole hwhole] at hout
    have hlen := congrArg List.length hout
    rw [sentFragments, List.length_map, List.length_range, List.length_singleton] at hlen
    omega
  · have hF := family_truncated m (maxPayload m M) (Nat.lt_of_not_le hc)
    obtain ⟨r, hr⟩ := Nat.exists_eq_add_of_le (Nat.mod_le (fragCount m M) 256)
    have hsplit : sentFragments M m =
        (List.range (fragCount m M % 256)).map (fragment m (maxPayload m M) (fragCount m M)) ++
          ((List.range r).map (fragCount m M % 256 + ·)).map
            (fragment m (maxPayload m M) (fragCount m M)) := by
      rw [sentFragments, ← List.map_append, ← List.range_add, ← hr]
    have hfresh : ¬ Defragger.TracksFamily (fragCount m M % 256)
        (fragment m (maxPayload m M) (fragCount m M)) Defragger.default :=
      default_not_tracks hF.two_le
    rw [hsplit, Defragger.returned_append, (Defragger.returned_family hF hfresh).1,
      List.singleton_append] at hout
    rw [← (List.cons.inj hout).1]
    intro hdata
    have hlen := congrArg List.length hdata
    change ((List.range (fragCount m M % 256)).flatMap (piece m.data (maxPayload m M))).length =
      m.data.length at hlen
    have hlt : fragCount m M % 256 < divCeil m.data.length (maxPayload m M) := by
      change _ < fragCount m M
      omega
    rw [lt_divCeil_iff hp] at hlt
    rw [flatMap_piece, List.length_take] at hlen
    omega

end Fragments

/-! ### When a successful call has emitted the payload -/

/-- The message is carried within the limit: whole, or in at most 255 fragments. -/
def Fits (M : ℕ) (m : UdpMessage) : Prop :=
  m.size ≤ M ∨ m.headerSize < M ∧ fragCount m M ≤ 255

instance (M : ℕ) (m : UdpMessage) : Decidable (Fits M m) := inferInstanceAs (Decidable (_ ∨ _))

theorem wellFormed_packetMessage (hdata : data ≠ []) (haddr : 1 ≤ addr.utf8ByteSize)
    (haddr' : addr.utf8ByteSize ≤ 2048) (id : UInt32) (packetId : UInt16) :
    (packetMessage id packetId data addr).WellFormed :=
  ⟨haddr, haddr', hdata⟩

theorem received_whole {m : UdpMessage} (hm : m.WellFormed) (h1 : m.fragCount ≤ 1)
    (d : Defragger) : d.received [m.wire] = [m] ∧ Mealy.final Defragger.receive d [m.wire] = d := by
  rw [Defragger.received, Mealy.outputs_cons, Mealy.final_cons, Defragger.receive_wire hm,
    Defragger.feed_of_whole h1]
  exact ⟨rfl, rfl⟩

/-- **When a successful call has emitted its payload.** The datagrams of a successful call are
reassembled to exactly the payload, if and only if the message fits the limit, or a header does and
at most 255 fragments are needed. -/
theorem send_emits_iff (hconn : conn.Limited M) (hdata : data ≠ [])
    (haddr : 1 ≤ addr.utf8ByteSize) (haddr' : addr.utf8ByteSize ≤ 2048) (id : UInt32)
    (packetId : UInt16) :
    Emits id data addr (send conn id packetId data addr) ↔ Fits M (message id data addr) := by
  by_cases hsize : (message id data addr).size ≤ M
  · have hreceived := (received_whole (m := message id data addr) ⟨haddr, haddr', hdata⟩
      (UInt8.le_refl 1) Defragger.default).1
    rw [send_of_fits hconn hsize]
    exact ⟨fun _ => .inl hsize, fun _ _ => ⟨_, hreceived, rfl, rfl, rfl⟩⟩
  · have hsize := Nat.not_le.1 hsize
    by_cases hheader : (message id data addr).headerSize < M
    · have hwf : (packetMessage id packetId data addr).WellFormed :=
        wellFormed_packetMessage hdata haddr haddr' id packetId
      have hwire := (Defragger.receive_map_wire (fun f hf => wellFormed_of_mem_sentFragments hwf
        hheader hf) Defragger.default).1
      rw [send_of_headerSize_lt hconn hsize hheader, Emits, hwire]
      constructor
      · intro hemits
        obtain ⟨out, hout, hout', -⟩ := hemits rfl
        refine .inr ⟨hheader, Nat.not_lt.1 fun hk => ?_⟩
        exact returned_sentFragments_of_overflow (m := packetMessage id packetId data addr)
          hheader hk hout hout'
      · rintro (hfits | ⟨-, hk⟩) -
        · omega
        · have hreturned := (returned_sentFragments (m := packetMessage id packetId data addr)
            hsize hheader hk (default_not_tracks (two_le_fragCount hsize hheader))).1
          exact ⟨_, hreturned, rfl, rfl, rfl⟩
    · have hheader := Nat.not_lt.1 hheader
      rw [send_of_le_headerSize hconn hsize hheader]
      constructor
      · intro hemits
        obtain ⟨out, hout, -⟩ := hemits rfl
        exact absurd hout (by simp [Defragger.received])
      · rintro (hfits | ⟨hlt, -⟩)
        · omega
        · omega

end Limited

/-- A connection with the datagram limit `M`. -/
def Connection.ofLimit (M : ℕ) : Connection where
  sendDatagram datagram :=
    if datagram.length ≤ M then .ok () else .error (.tooLarge "datagram too large")
  maxDatagramSize := some M

theorem Connection.limited_ofLimit (M : ℕ) : (Connection.ofLimit M).Limited M where
  maxDatagramSize_eq := rfl
  accepts _ h := if_pos h
  rejects _ h := ⟨"datagram too large", if_neg (Nat.not_le.2 h)⟩

/-- A limit that leaves room for one byte: three fragments carry three bytes. -/
theorem send_emits_three_fragments :
    Emits 1 [1, 2, 3] "a:1" (send (.ofLimit 13) 1 7 [1, 2, 3] "a:1") :=
  (send_emits_iff (Connection.limited_ofLimit 13) (by decide) (by decide) (by decide) 1 7).2
    (by decide)

/-- A limit of the size of the header: the call succeeds and sends nothing. -/
theorem send_succeeds_without_datagrams :
    ¬ (∀ (conn : Connection) (M : ℕ) (id : UInt32) (packetId : UInt16) (data : Bytes)
        (addr : String), conn.Limited M → data ≠ [] → 1 ≤ addr.utf8ByteSize →
        addr.utf8ByteSize ≤ 2048 → Emits id data addr (send conn id packetId data addr)) ∧
      send (.ofLimit 12) 1 7 [1, 2, 3] "a:1" = (.ok (), []) := by
  have hsend : send (.ofLimit 12) 1 7 [1, 2, 3] "a:1" = (.ok (), []) :=
    send_of_le_headerSize (Connection.limited_ofLimit 12) (by decide) (by decide)
  refine ⟨fun h => ?_, hsend⟩
  have hemits := h (.ofLimit 12) 12 1 7 [1, 2, 3] "a:1" (Connection.limited_ofLimit 12) (by decide)
    (by decide) (by decide)
  rw [hsend] at hemits
  obtain ⟨m, hm, -⟩ := hemits rfl
  exact absurd hm (by simp [Defragger.received])

end Rsteria.Udp
