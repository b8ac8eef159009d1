import Rsteria.Udp.Network

/-!
# Sending over a connection that changes

`UdpSession::send` of `src/udp.rs` hands its datagrams to the connection one after the other, and
the connection may change between them: its datagram limit follows the path, and it may be lost. A
`Link` answers each datagram from a state of its own. The model of a call with stable answers is the
special case of a link without a state (`send_ofConnection`).

The fragments that a call hands over before it fails are a proper prefix of them
(`sendFragments_spec`), so a call that returns an error has sent nothing that a receiver could take
for a packet: not in this order and not in any other, and not if datagrams are lost or repeated.
Where at most 255 fragments are needed, what a receiver makes of the datagrams of one call is the
payload or nothing (`send_all_or_nothing`).

## Main definitions

* `Udp.Link`, `Udp.Link.send`.

## Main results

* `Udp.Link.send_ofConnection` : a connection with stable answers is a link.
* `Udp.Link.send_all_or_nothing` : what a receiver makes of the datagrams of a call.
-/

namespace Rsteria.Udp

open Protocol

/-- The connection during a call: its answers may depend on all that happened before. -/
structure Link (σ : Type) where
  sendDatagram : σ → Bytes → Except SendDatagramError Unit × σ
  maxDatagramSize : σ → Option ℕ

/-- A connection with stable answers. -/
def Link.ofConnection (conn : Connection) : Link Unit where
  sendDatagram _ datagram := (conn.sendDatagram datagram, ())
  maxDatagramSize _ := conn.maxDatagramSize

namespace Link

variable {σ : Type} (link : Link σ)

/-- Send fragments one by one, up to the first that is rejected: the result, the datagrams that the
connection accepted, and the connection afterwards. -/
def sendFragments : σ → List UdpMessage → Except Error Unit × List Bytes × σ
  | s, [] => (.ok (), [], s)
  | s, f :: fs =>
    match f.toDatagram f.size with
    | none => sendFragments s fs
    | some datagram =>
      match link.sendDatagram s datagram with
      | (.error e, s) => (.error (.protocol ("send fragment: " ++ e.text)), [], s)
      | (.ok (), s) =>
        let (result, sent, s) := sendFragments s fs
        (result, datagram :: sent, s)

/-- Fragment a message to the current datagram limit and send each piece. -/
def sendFragmented (s : σ) (packetId : UInt16) (msg : UdpMessage) :
    Except Error Unit × List Bytes × σ :=
  let max := (link.maxDatagramSize s).getD maxDatagramFrameSize
  link.sendFragments s (fragUdpMessage { msg with packetId := packetId } max)

/-- `UdpSession::send`: the result, the datagrams that the connection accepted, and the connection
afterwards. -/
def send (s : σ) (id : UInt32) (packetId : UInt16) (data : Bytes) (addr : String) :
    Except Error Unit × List Bytes × σ :=
  let msg := message id data addr
  match msg.toDatagram (max msg.size maxUdpSize) with
  | some datagram =>
    match link.sendDatagram s datagram with
    | (.ok (), s) => (.ok (), [datagram], s)
    | (.error (.tooLarge _), s) => link.sendFragmented s packetId msg
    | (.error (.other text), s) => (.error (.protocol ("send datagram: " ++ text)), [], s)
  | none => link.sendFragmented s packetId msg

theorem sendFragments_ofConnection (conn : Connection) (fs : List UdpMessage) :
    (ofConnection conn).sendFragments () fs =
      ((Udp.sendFragments conn fs).1, (Udp.sendFragments conn fs).2, ()) := by
  induction fs with
  | nil => rfl
  | cons f fs ih =>
    simp only [sendFragments, Udp.sendFragments]
    cases f.toDatagram f.size with
    | none => exact ih
    | some datagram =>
      simp only [ofConnection]
      cases conn.sendDatagram datagram with
      | error e => rfl
      | ok u =>
        have ih' : sendFragments ⟨fun _ datagram => (conn.sendDatagram datagram, ()),
            fun _ => conn.maxDatagramSize⟩ () fs = _ := ih
        simp only [ih']

/-- A connection with stable answers is a link without a state. -/
theorem send_ofConnection (conn : Connection) (id : UInt32) (packetId : UInt16) (data : Bytes)
    (addr : String) :
    (ofConnection conn).send () id packetId data addr =
      ((Udp.send conn id packetId data addr).1, (Udp.send conn id packetId data addr).2, ()) := by
  have hfrag (msg : UdpMessage) : (ofConnection conn).sendFragmented () packetId msg =
      ((Udp.sendFragmented conn packetId msg).1, (Udp.sendFragmented conn packetId msg).2, ()) :=
    sendFragments_ofConnection conn _
  simp only [send, Udp.send]
  cases (message id data addr).toDatagram (max (message id data addr).size maxUdpSize) with
  | none => exact hfrag _
  | some datagram =>
    have hanswer : (ofConnection conn).sendDatagram () datagram =
        (conn.sendDatagram datagram, ()) := rfl
    simp only [hanswer]
    cases conn.sendDatagram datagram with
    | ok u => rfl
    | error e =>
      cases e with
      | tooLarge text => exact hfrag _
      | other text => rfl

/-! ### What a call hands over -/

variable {link} {s : σ}

/-- The fragments that are handed over are the first ones, and all of them exactly if the call
succeeds. -/
theorem sendFragments_spec (link : Link σ) (s : σ) (fs : List UdpMessage) :
    ∃ n, (link.sendFragments s fs).2.1 = (fs.take n).map UdpMessage.wire ∧
      ((link.sendFragments s fs).1 = .ok () ∧ n = fs.length ∨
        (link.sendFragments s fs).1 ≠ .ok () ∧ n < fs.length) := by
  induction fs generalizing s with
  | nil => exact ⟨0, rfl, .inl ⟨rfl, rfl⟩⟩
  | cons f fs ih =>
    simp only [sendFragments, UdpMessage.toDatagram_eq le_rfl]
    rcases hanswer : link.sendDatagram s f.wire with ⟨answer, s'⟩
    cases answer with
    | error e => exact ⟨0, rfl, .inr ⟨by simp, Nat.succ_pos _⟩⟩
    | ok u =>
      obtain ⟨n, hsent, hresult⟩ := ih s'
      refine ⟨n + 1, congrArg (List.cons f.wire) hsent, ?_⟩
      rcases hresult with ⟨hok, hn⟩ | ⟨herr, hn⟩
      · exact .inl ⟨hok, congrArg Nat.succ hn⟩
      · exact .inr ⟨herr, Nat.succ_lt_succ hn⟩

/-- What a call hands over: the whole message, nothing, or the first fragments under the limit at
the time. -/
theorem send_spec (link : Link σ) (s : σ) (id : UInt32) (packetId : UInt16) (data : Bytes)
    (addr : String) :
    ((link.send s id packetId data addr).1 = .ok () ∧
        (link.send s id packetId data addr).2.1 = [(message id data addr).wire]) ∨
      ((link.send s id packetId data addr).1 ≠ .ok () ∧
        (link.send s id packetId data addr).2.1 = []) ∨
      ∃ s' n, (link.send s id packetId data addr).2.1 =
          ((fragUdpMessage (packetMessage id packetId data addr)
            ((link.maxDatagramSize s').getD maxDatagramFrameSize)).take n).map UdpMessage.wire ∧
        ((link.send s id packetId data addr).1 = .ok () ∧
            n = (fragUdpMessage (packetMessage id packetId data addr)
              ((link.maxDatagramSize s').getD maxDatagramFrameSize)).length ∨
          (link.send s id packetId data addr).1 ≠ .ok () ∧
            n < (fragUdpMessage (packetMessage id packetId data addr)
              ((link.maxDatagramSize s').getD maxDatagramFrameSize)).length) := by
  simp only [send, UdpMessage.toDatagram_eq (le_max_left _ maxUdpSize)]
  rcases hanswer : link.sendDatagram s (message id data addr).wire with ⟨answer, s'⟩
  cases answer with
  | ok u => exact .inl ⟨rfl, rfl⟩
  | error e =>
    cases e with
    | tooLarge text => exact .inr (.inr ⟨s', sendFragments_spec link s' _⟩)
    | other text => exact .inr (.inl ⟨by simp, rfl⟩)

/-! ### What a receiver makes of it -/

/-- Without one of its fragments a packet is not returned. -/
theorem returned_eq_nil_of_missing {k : ℕ} {F : ℕ → UdpMessage} (hF : Defragger.Family k F) {j : ℕ}
    (hj : j < k) {ms : List UdpMessage} (hms : ∀ m ∈ ms, ∃ i < k, i ≠ j ∧ m = F i) :
    Defragger.default.returned ms = [] := by
  refine List.eq_nil_iff_forall_not_mem.2 fun out hout => ?_
  rcases exists_of_mem_returned hout with ⟨hmem, hle⟩ | ⟨t, m, hret⟩
  · obtain ⟨i, hi, -, rfl⟩ := hms out hmem
    exact absurd hle (UInt8.not_le.2 (hF.isFragment hi).1)
  · obtain ⟨r, src, -, hasm⟩ := hret.exists_assembles
    obtain ⟨f, hf, -⟩ := hasm.joined
    obtain ⟨i, hi, -, rfl⟩ := hms m (List.mem_of_getElem? hret.1)
    rw [hF.fragCount i hi] at hf
    -- The fragment with the missing number would have contributed.
    obtain ⟨hmem, -, -, hid⟩ := hf j hj
    obtain ⟨i', hi', hne, heq⟩ := hms (f j) (List.mem_of_getElem? hmem)
    rw [heq, hF.fragId i' hi'] at hid
    exact hne hid

/-- The messages of datagrams that are among those of well-formed messages. -/
theorem mem_of_mem_filterMap_parse {fs : List UdpMessage} (hfs : ∀ f ∈ fs, f.WellFormed)
    {raws : List Bytes} (hraws : ∀ raw ∈ raws, raw ∈ fs.map UdpMessage.wire) {m : UdpMessage}
    (hm : m ∈ raws.filterMap UdpMessage.parse) : m ∈ fs := by
  obtain ⟨raw, hraw, hparse⟩ := List.mem_filterMap.1 hm
  obtain ⟨f, hf, rfl⟩ := List.mem_map.1 (hraws raw hraw)
  rw [UdpMessage.parse_wire (hfs f hf)] at hparse
  rwa [← Option.some.inj hparse]

/-- What a receiver may make of the datagrams of a call: copies of one message from any of them,
nothing if the call failed, and the message itself from all of them if the call succeeded and sent
anything. -/
structure AllOrNothing (id : UInt32) (data : Bytes) (addr : String) (result : Except Error Unit)
    (sent : List Bytes) : Prop where
  intact : ∀ raws : List Bytes, (∀ raw ∈ raws, raw ∈ sent) →
    ∀ m ∈ Defragger.default.received raws, m.data = data ∧ m.addr = addr ∧ m.sessionId = id
  nothing : result ≠ .ok () → ∀ raws : List Bytes, (∀ raw ∈ raws, raw ∈ sent) →
    Defragger.default.received raws = []
  whole : result = .ok () → sent ≠ [] → ∃ m, Defragger.default.received sent = [m]

variable {id : UInt32} {packetId : UInt16} {data : Bytes} {addr : String}

theorem allOrNothing_nil (id : UInt32) (data : Bytes) (addr : String) (result : Except Error Unit) :
    AllOrNothing id data addr result [] := by
  have hnil (raws : List Bytes) (hraws : ∀ raw ∈ raws, raw ∈ ([] : List Bytes)) :
      Defragger.default.received raws = [] := by
    rw [List.eq_nil_iff_forall_not_mem.2 fun raw hraw => List.not_mem_nil (hraws raw hraw)]
    rfl
  refine ⟨fun raws hraws m hm => ?_, fun _ => hnil, fun _ h => absurd rfl h⟩
  rw [hnil raws hraws] at hm
  exact absurd hm List.not_mem_nil

/-- A message that is sent whole. -/
theorem allOrNothing_whole {f : UdpMessage} (hf : f.WellFormed) (h1 : f.fragCount ≤ 1) :
    AllOrNothing f.sessionId f.data f.addr (.ok ()) [f.wire] := by
  refine ⟨fun raws hraws m hm => ?_, fun h => absurd rfl h,
    fun _ _ => ⟨f, (received_whole hf h1 _).1⟩⟩
  rw [received_eq_returned] at hm
  have hfs : ∀ x ∈ [f], x.WellFormed := fun x hx => List.mem_singleton.1 hx ▸ hf
  have hmem (x : UdpMessage) (hx : x ∈ raws.filterMap UdpMessage.parse) : x = f :=
    List.mem_singleton.1 (mem_of_mem_filterMap_parse hfs hraws hx)
  rw [returned_of_whole fun x hx => by rw [hmem x hx]; exact h1] at hm
  rw [hmem m hm]
  exact ⟨rfl, rfl, rfl⟩

/-- The first fragments of a packet. -/
theorem allOrNothing_fragments {M n : ℕ} {result : Except Error Unit}
    (hwf : (packetMessage id packetId data addr).WellFormed)
    (hsize : M < (packetMessage id packetId data addr).size)
    (hheader : (packetMessage id packetId data addr).headerSize < M)
    (hk : fragCount (packetMessage id packetId data addr) M ≤ 255)
    (hn : result = .ok () ∧ n = (sentFragments M (packetMessage id packetId data addr)).length ∨
      result ≠ .ok () ∧ n < (sentFragments M (packetMessage id packetId data addr)).length) :
    AllOrNothing id data addr result
      (((sentFragments M (packetMessage id packetId data addr)).take n).map UdpMessage.wire) := by
  have hF := Defragger.family_fragment hsize hheader hk
  have hfs : ∀ f ∈ (sentFragments M (packetMessage id packetId data addr)).take n,
      f.WellFormed := fun f hf =>
    wellFormed_of_mem_sentFragments hwf hheader (List.mem_of_mem_take hf)
  have hlen : (sentFragments M (packetMessage id packetId data addr)).length =
      fragCount (packetMessage id packetId data addr) M := by
    rw [sentFragments, List.length_map, List.length_range]
  refine ⟨fun raws hraws m hm => ?_, fun herr raws hraws => ?_, fun hok _ => ?_⟩
  · have hvalid : ∀ p ∈ [(⟨data, addr, packetId⟩ : Packet)], p.Valid M := by
      intro p hp
      rw [List.mem_singleton.1 hp]
      exact ⟨hwf.3, hwf.1, hwf.2, .inr ⟨hheader, hk⟩⟩
    have hun : Unambiguous M [(⟨data, addr, packetId⟩ : Packet)] := by
      intro p hp q hq _ _
      rw [List.mem_singleton.1 hp, List.mem_singleton.1 hq]
    rw [received_eq_returned] at hm
    have hmem : ∀ x ∈ raws.filterMap UdpMessage.parse,
        x ∈ [(⟨data, addr, packetId⟩ : Packet)].flatMap (Packet.messages M id) := by
      intro x hx
      have hmessages : (⟨data, addr, packetId⟩ : Packet).messages M id =
          sentFragments M (packetMessage id packetId data addr) := if_neg (Nat.not_le.2 hsize)
      rw [List.flatMap_singleton, hmessages]
      exact List.mem_of_mem_take (mem_of_mem_filterMap_parse hfs hraws hx)
    obtain ⟨p, hp, hout⟩ := exists_packet_of_mem_returned hvalid hun hmem hm
    rwa [List.mem_singleton.1 hp] at hout
  · have hn := (hn.resolve_left fun h => herr h.1).2
    rw [hlen] at hn
    rw [received_eq_returned]
    refine returned_eq_nil_of_missing hF hn fun m hm => ?_
    have hmem := mem_of_mem_filterMap_parse hfs hraws hm
    rw [sentFragments, ← List.map_take, List.take_range, List.mem_map] at hmem
    obtain ⟨i, hi, rfl⟩ := hmem
    have hi := List.mem_range.1 hi
    exact ⟨i, by omega, by omega, rfl⟩
  · have hn := (hn.resolve_right fun h => h.1 hok).2
    rw [hn, List.take_length] at hfs ⊢
    rw [(Defragger.receive_map_wire hfs _).1]
    exact ⟨_, (returned_sentFragments hsize hheader hk
      (default_not_tracks (two_le_fragCount hsize hheader))).1⟩

/-- **A packet arrives whole or not at all.** Whatever the connection does during a call, as long as
its limit asks for at most 255 fragments: a receiver that gets any of the datagrams of the call, in
any order and any number of times, returns the payload with its address and nothing else; it returns
nothing if the call failed; and it returns the payload once if it gets what a successful call sent,
unless that is nothing. -/
theorem send_all_or_nothing (link : Link σ) (s : σ) (hdata : data ≠ [])
    (haddr : 1 ≤ addr.utf8ByteSize) (haddr' : addr.utf8ByteSize ≤ 2048) (id : UInt32)
    (packetId : UInt16)
    (hk : ∀ s', fragCount (message id data addr)
      ((link.maxDatagramSize s').getD maxDatagramFrameSize) ≤ 255) :
    AllOrNothing id data addr (link.send s id packetId data addr).1
      (link.send s id packetId data addr).2.1 := by
  have hwf : (packetMessage id packetId data addr).WellFormed := ⟨haddr, haddr', hdata⟩
  rcases send_spec link s id packetId data addr with ⟨hok, hsent⟩ | ⟨-, hsent⟩ | ⟨s', n, hsent, hn⟩
  · rw [hok, hsent]
    exact allOrNothing_whole (f := message id data addr) ⟨haddr, haddr', hdata⟩ (UInt8.le_refl 1)
  · rw [hsent]
    exact allOrNothing_nil ..
  · rw [hsent]
    generalize hM : (link.maxDatagramSize s').getD maxDatagramFrameSize = M at hn ⊢
    have hk : fragCount (packetMessage id packetId data addr) M ≤ 255 := hM ▸ hk s'
    rcases Nat.lt_or_ge M (packetMessage id packetId data addr).size with hsize | hsize
    · rcases Nat.lt_or_ge (packetMessage id packetId data addr).headerSize M with hheader | hheader
      · have hfrags : fragUdpMessage (packetMessage id packetId data addr) M =
            sentFragments M (packetMessage id packetId data addr) := fragUdpMessage_eq hsize hheader
        rw [hfrags] at hn ⊢
        exact allOrNothing_fragments hwf hsize hheader hk hn
      · rw [fragUdpMessage_of_le_headerSize hsize hheader, List.take_nil, List.map_nil]
        exact allOrNothing_nil ..
    · -- The limit has grown since the first attempt.
      rw [fragUdpMessage_of_size_le hsize, List.length_singleton] at hn
      rw [fragUdpMessage_of_size_le hsize]
      rcases hn with ⟨hok, rfl⟩ | ⟨-, hzero⟩
      · rw [hok]
        exact allOrNothing_whole hwf (UInt8.le_refl 1)
      · rw [Nat.lt_one_iff.1 hzero]
        exact allOrNothing_nil ..

/-- A connection with the datagram limit 13 that is lost after so many datagrams. -/
def lostAfter : Link ℕ where
  sendDatagram
    | left, datagram =>
      if 13 < datagram.length then (.error (.tooLarge "datagram too large"), left)
      else if left = 0 then (.error (.other "connection lost"), 0)
      else (.ok (), left - 1)
  maxDatagramSize _ := some 13

/-- Three bytes in three fragments, of which two are sent before the connection is lost. -/
theorem send_all_or_nothing_lost :
    AllOrNothing 1 [1, 2, 3] "a:1" (lostAfter.send 2 1 7 [1, 2, 3] "a:1").1
        (lostAfter.send 2 1 7 [1, 2, 3] "a:1").2.1 ∧
      (lostAfter.send 2 1 7 [1, 2, 3] "a:1").1 =
        .error (.protocol "send fragment: connection lost") ∧
      (lostAfter.send 2 1 7 [1, 2, 3] "a:1").2.1.length = 2 := by
  have hfrags : fragUdpMessage (packetMessage 1 7 [1, 2, 3] "a:1") 13 =
      sentFragments 13 (packetMessage 1 7 [1, 2, 3] "a:1") :=
    fragUdpMessage_eq (by decide) (by decide)
  have hsend : lostAfter.send 2 1 7 [1, 2, 3] "a:1" =
      lostAfter.sendFragments 2 (fragUdpMessage (packetMessage 1 7 [1, 2, 3] "a:1") 13) := by
    simp only [send, UdpMessage.toDatagram_eq (le_max_left _ maxUdpSize)]
    rfl
  refine ⟨send_all_or_nothing lostAfter 2 (by decide) (by decide) (by decide) 1 7 (fun _ => ?_),
    ?_, ?_⟩
  · exact show fragCount (message 1 [1, 2, 3] "a:1") 13 ≤ 255 from by decide
  · rw [hsend, hfrags]
    decide
  · rw [hsend, hfrags]
    decide

end Link

end Rsteria.Udp
