import Rsteria.Protocol.Provenance
import Rsteria.Udp.Isolation

/-!
# Packets over an unreliable network

The datagrams of several packets, each sent with the scheme of `UdpSession::send`, travel over a
network that may lose, repeat, delay and reorder them and mix them with datagrams that are no
messages. What a reassembler makes of them was sent, as long as no two fragmented packets of one
session share a packet id and a fragment count without sharing their contents (`Unambiguous`): every
fragment then tells which packet it belongs to, and a packet is returned from all of its fragments
or not at all (`exists_packet_of_mem_returned`). The sessions of a relay share the network, and each
of them receives packets that were sent to it (`relay_returns_sent`).

On a network that keeps what it is given, and the order of it for each session, a session receives
the packets that a single reassembler lets through (`survivors`), whatever the other sessions do
meanwhile and however its own polls are interleaved with the arrivals (`relay_returns_survivors`).

## Main definitions

* `Udp.Packet.messages` : the messages that a packet is sent in.
* `Udp.Unambiguous` : packets whose fragments are not confused.

## Main results

* `Udp.exists_packet_of_mem_returned` : a reassembler returns packets that were sent.
* `Udp.Relay.relay_returns_sent` : so does every session of a relay.
* `Udp.Relay.relay_returns_survivors` : what a session receives if nothing is lost.
-/

namespace Rsteria.Udp

open Protocol

/-! ### The messages of a packet -/

/-- The messages that a packet is sent in, under the limit `M`. -/
def Packet.messages (M : ℕ) (id : UInt32) (p : Packet) : List UdpMessage :=
  if (message id p.data p.addr).size ≤ M then [message id p.data p.addr]
  else sentFragments M (packetMessage id p.packetId p.data p.addr)

/-- Packets whose fragments are not confused: two fragmented packets with the same packet id and
fragment count carry the same payload to the same address. -/
def Unambiguous (M : ℕ) (ps : List Packet) : Prop :=
  ∀ p ∈ ps, ∀ q ∈ ps, (p.key M).isSome → p.key M = q.key M → p.content = q.content

section

variable {conn : Connection} {M : ℕ} {id : UInt32} {p : Packet} {ps : List Packet}
  {ms : List UdpMessage} {m out : UdpMessage}

theorem Packet.Valid.wellFormed_messages (hp : p.Valid M) (hm : m ∈ p.messages M id) :
    m.WellFormed := by
  have hwf : (message id p.data p.addr).WellFormed := ⟨hp.addr_pos, hp.addr_le, hp.data_ne_nil⟩
  rw [Packet.messages] at hm
  split_ifs at hm with hsize
  · rw [List.mem_singleton.1 hm]
    exact hwf
  · have hheader : (packetMessage id p.packetId p.data p.addr).headerSize < M :=
      (hp.fits.resolve_left hsize).1
    exact wellFormed_of_mem_sentFragments ⟨hp.addr_pos, hp.addr_le, hp.data_ne_nil⟩ hheader hm

/-- A packet is sent as the bytes of its messages. -/
theorem Packet.Valid.send_eq (hconn : conn.Limited M) (hp : p.Valid M) (id : UInt32) :
    (send conn id p.packetId p.data p.addr).2 = (p.messages M id).map UdpMessage.wire := by
  rw [Packet.messages]
  split_ifs with hsize
  · rw [send_of_fits hconn hsize]
    rfl
  · have hheader : (message id p.data p.addr).headerSize < M := (hp.fits.resolve_left hsize).1
    rw [send_of_headerSize_lt hconn (Nat.not_le.1 hsize) hheader]

theorem sendAll_eq (hconn : conn.Limited M) (hps : ∀ p ∈ ps, p.Valid M) (id : UInt32) :
    sendAll conn id ps = (ps.flatMap (Packet.messages M id)).map UdpMessage.wire := by
  rw [sendAll, List.map_flatMap]
  exact List.flatMap_congr fun p hp => (hps p hp).send_eq hconn id

/-- What a datagram of the packets is parsed to. -/
theorem exists_parse_of_mem_sendAll (hconn : conn.Limited M) (hps : ∀ p ∈ ps, p.Valid M)
    {raw : Bytes} (hraw : raw ∈ sendAll conn id ps) :
    ∃ m ∈ ps.flatMap (Packet.messages M id), UdpMessage.parse raw = some m := by
  rw [sendAll_eq hconn hps] at hraw
  obtain ⟨m, hm, rfl⟩ := List.mem_map.1 hraw
  obtain ⟨p, hp, hmp⟩ := List.mem_flatMap.1 hm
  exact ⟨m, hm, UdpMessage.parse_wire ((hps p hp).wellFormed_messages hmp)⟩

theorem Packet.sessionId_messages (hm : m ∈ p.messages M id) : m.sessionId = id := by
  rw [Packet.messages] at hm
  split_ifs at hm with hsize
  · rw [List.mem_singleton.1 hm]
    rfl
  · obtain ⟨i, -, rfl⟩ := List.mem_map.1 hm
    rfl

/-- A message of a packet is the whole packet, or one of the fragments that its key counts. -/
theorem Packet.Valid.messages_cases (hp : p.Valid M) (hm : m ∈ p.messages M id) :
    m = message id p.data p.addr ∨
      p.key M = some (m.packetId, m.fragCount.toNat) ∧ 1 < m.fragCount ∧
        m = fragment (packetMessage id p.packetId p.data p.addr)
          (maxPayload (packetMessage id p.packetId p.data p.addr) M) m.fragCount.toNat
          m.fragId.toNat := by
  rw [Packet.messages] at hm
  split_ifs at hm with hsize
  · exact .inl (List.mem_singleton.1 hm)
  · have hlt : M < (packetMessage id p.packetId p.data p.addr).size := Nat.not_le.1 hsize
    obtain ⟨hheader, hk⟩ := hp.fits.resolve_left hsize
    have hF := Defragger.family_fragment hlt hheader hk
    obtain ⟨i, hi, rfl⟩ := List.mem_map.1 hm
    have hi := List.mem_range.1 hi
    refine .inr ⟨?_, (hF.isFragment hi).1, ?_⟩
    · have hkey : p.key M = some (p.packetId, fragCount (message 0 p.data p.addr) M) :=
        if_neg hsize
      rw [hkey, hF.fragCount i hi]
      rfl
    · rw [hF.fragCount i hi, hF.fragId i hi]

/-! ### What a reassembler returns -/

/-- What is joined depends on the fragments that are joined. -/
theorem joined_congr {k : ℕ} {f g : ℕ → UdpMessage} (hk : 0 < k) (h : ∀ i < k, f i = g i) :
    Defragger.joined k f = Defragger.joined k g := by
  have hdata : ((List.range k).flatMap fun i => (f i).data) =
      (List.range k).flatMap fun i => (g i).data :=
    List.flatMap_congr fun i hi => by rw [h i (List.mem_range.1 hi)]
  rw [Defragger.joined, Defragger.joined, hdata, h 0 hk]

/-- What a fresh reassembler returns was fed whole, or is reassembled. -/
theorem exists_of_mem_returned (h : out ∈ Defragger.default.returned ms) :
    (out ∈ ms ∧ out.fragCount ≤ 1) ∨ ∃ t m, Defragger.Returned ms t m out := by
  rw [Defragger.returned, List.mem_filterMap] at h
  obtain ⟨answer, hanswer, rfl⟩ := h
  obtain ⟨t, ht⟩ := List.mem_iff_getElem?.1 hanswer
  rw [Mealy.getElem?_outputs, Option.map_eq_some_iff] at ht
  obtain ⟨m, hm, hfeed⟩ := ht
  by_cases hwhole : m.fragCount ≤ 1
  · rw [Defragger.feed_of_whole hwhole] at hfeed
    obtain rfl := Option.some.inj hfeed
    exact .inl ⟨List.mem_of_getElem? hm, hwhole⟩
  · exact .inr ⟨t, m, hm, UInt8.not_le.1 hwhole, hfeed⟩

/-- Fragments of the packets that have the packet id and the fragment count of one of them belong
to it. -/
theorem fragment_of_unambiguous (hps : ∀ p ∈ ps, p.Valid M) (hun : Unambiguous M ps)
    (hp : p ∈ ps) (hkey : p.key M = some (m.packetId, m.fragCount.toNat)) (h1 : 1 < m.fragCount)
    (hm : m ∈ ps.flatMap (Packet.messages M id)) :
    m = fragment (packetMessage id p.packetId p.data p.addr)
      (maxPayload (packetMessage id p.packetId p.data p.addr) M) m.fragCount.toNat
      m.fragId.toNat := by
  obtain ⟨q, hq, hmq⟩ := List.mem_flatMap.1 hm
  rcases (hps q hq).messages_cases hmq with hwhole | ⟨hkey', -, hfrag⟩
  · rw [hwhole] at h1
    exact absurd h1 (by simp [message])
  · have hcontent := hun p hp q hq (by rw [hkey]; rfl) (hkey.trans hkey'.symm)
    obtain ⟨hdata, haddr⟩ := Prod.mk.inj hcontent
    have hpid (p : Packet) (hkey : p.key M = some (m.packetId, m.fragCount.toNat)) :
        p.packetId = m.packetId := by
      rw [Packet.key] at hkey
      split_ifs at hkey with hsize
      exact congrArg Prod.fst (Option.some.inj hkey)
    rw [hdata, haddr, hpid p hkey, ← hpid q hkey']
    exact hfrag

/-- **A reassembler returns packets that were sent.** Whatever the network does to the datagrams of
unambiguous packets, what is reassembled from those that arrive is one of the packets. -/
theorem exists_packet_of_mem_returned (hps : ∀ p ∈ ps, p.Valid M) (hun : Unambiguous M ps)
    (hms : ∀ m ∈ ms, m ∈ ps.flatMap (Packet.messages M id))
    (hout : out ∈ Defragger.default.returned ms) :
    ∃ p ∈ ps, out.data = p.data ∧ out.addr = p.addr ∧ out.sessionId = id := by
  rcases exists_of_mem_returned hout with ⟨hmem, hle⟩ | ⟨t, m, hret⟩
  · obtain ⟨p, hp, hmp⟩ := List.mem_flatMap.1 (hms out hmem)
    rcases (hps p hp).messages_cases hmp with hwhole | ⟨-, h1, -⟩
    · rw [hwhole]
      exact ⟨p, hp, rfl, rfl, rfl⟩
    · exact absurd hle (UInt8.not_le.2 h1)
  · obtain ⟨r, src, -, hasm⟩ := hret.exists_assembles
    obtain ⟨f, hf, hjoined⟩ := hasm.joined
    have h1 : 1 < m.fragCount := UInt8.lt_of_lt_of_le (by decide) hret.2.1
    obtain ⟨p, hp, hmp⟩ := List.mem_flatMap.1 (hms m (List.mem_of_getElem? hret.1))
    rcases (hps p hp).messages_cases hmp with hwhole | ⟨hkey, -, -⟩
    · rw [hwhole] at h1
      exact absurd h1 (by simp [message])
    · -- All contributing fragments belong to the packet of the last one.
      have hfrag (i : ℕ) (hi : i < m.fragCount.toNat) :
          f i = fragment (packetMessage id p.packetId p.data p.addr)
            (maxPayload (packetMessage id p.packetId p.data p.addr) M) m.fragCount.toNat i := by
        obtain ⟨hms', hpid, hcount, hid⟩ := hf i hi
        have h := fragment_of_unambiguous hps hun hp (by rw [hpid, hcount]; exact hkey)
          (by rwa [hcount]) (hms (f i) (List.mem_of_getElem? hms'))
        rwa [hcount, hid] at h
      have hsize : ¬ (message 0 p.data p.addr).size ≤ M := by
        intro hle
        rw [Packet.key, if_pos hle] at hkey
        exact absurd hkey (by simp)
      have hheader : (packetMessage id p.packetId p.data p.addr).headerSize < M :=
        ((hps p hp).fits.resolve_left hsize).1
      have hcount : m.fragCount.toNat =
          fragCount (packetMessage id p.packetId p.data p.addr) M := by
        rw [Packet.key, if_neg hsize] at hkey
        exact (congrArg Prod.snd (Option.some.inj hkey)).symm
      have hout : out = { packetMessage id p.packetId p.data p.addr with
          fragId := 0, fragCount := 1 } := by
        rw [hjoined, ← Defragger.joined_fragment hheader m.fragCount.toNat, ← hcount]
        exact joined_congr (Nat.zero_lt_of_lt (UInt8.lt_iff_toNat_lt.1 h1)) hfrag
      rw [hout]
      exact ⟨p, hp, rfl, rfl, rfl⟩

end

/-- Receiving datagrams is feeding the messages among them. -/
theorem received_eq_returned (d : Defragger) (raws : List Bytes) :
    d.received raws = d.returned (raws.filterMap UdpMessage.parse) := by
  induction raws generalizing d with
  | nil => rfl
  | cons raw raws ih =>
    have ih := ih (d.receive raw).2
    rw [Defragger.received, Mealy.outputs_cons, List.filterMap_cons, ← Defragger.received, ih]
    cases hparse : UdpMessage.parse raw with
    | none =>
      rw [List.filterMap_cons_none hparse, Defragger.receive, hparse]
      rfl
    | some m =>
      rw [List.filterMap_cons_some hparse, Defragger.receive, hparse, Defragger.returned,
        Defragger.returned, Mealy.outputs_cons, List.filterMap_cons]

/-! ### The sessions of a relay -/

namespace Solo

open Relay (Event)

variable {h : ℕ} {s : Solo} {e : Event} {es : List Event}

/-- The session is open. -/
def Open (s : Solo) : Prop := ∃ c, s.channel = some c ∧ c.live = true

theorem Open.modify (hs : s.Open) {g : Channel → Channel}
    (hg : ∀ c, c.live = true → (g c).live = true) : (s.modify g).Open := by
  obtain ⟨c, hc, hlive⟩ := hs
  exact ⟨g c, by rw [Solo.modify, hc, Option.map_some], hg c hlive⟩

/-- A session stays open until it is dropped. -/
theorem Open.step (hs : s.Open) (hopened : s.opened ≠ h) (he : e ≠ .dropSession h) :
    (s.step h e).2.Open := by
  cases e with
  | newSession =>
    obtain ⟨c, hc, hlive⟩ := hs
    exact ⟨c, (if_neg hopened).trans hc, hlive⟩
  | dropSession k =>
    have hne : k ≠ h := fun hkh => he (congrArg _ hkh)
    simp only [Solo.step, hne, if_false]
    exact hs
  | datagram raw =>
    simp only [Solo.step]
    split
    · rename_i msg hparse
      split_ifs with hid
      · refine hs.modify fun c hlive => ?_
        rw [Channel.trySend]
        split_ifs with hroom
        · exact hlive
        · exact hlive
      · exact hs
    · exact hs
  | recv k =>
    simp only [Solo.step]
    split_ifs with hkh
    · refine hs.modify fun c hlive => ?_
      rw [Solo.recv, if_pos hlive]
      exact hlive
    · exact hs
  | closeConnection => exact hs
  | readError => exact hs
  | dropClient => exact hs

end Solo

namespace Relay

variable {conn : Connection} {M : ℕ} {es : List Event} {h : ℕ}

/-- A message that a session accepts is one with its id, from a datagram of the run. -/
theorem exists_datagram_of_mem_accepted (hes : ∀ e ∈ es, e.serves = true)
    (hcount : es.count .newSession ≤ 2 ^ 32) {m : UdpMessage} (hm : m ∈ accepted h es) :
    ∃ raw, .datagram raw ∈ es ∧ UdpMessage.parse raw = some m ∧
      m.sessionId = UInt32.ofNat (h + 1) ∧ h < es.count .newSession := by
  obtain ⟨t, e, he, hobs⟩ := Mealy.exists_of_mem_collect step hm
  have hs := serving_run_take hes hcount t
  have hlen := (serving_run (fun e he => hes e (List.mem_of_mem_take he))
    (((List.take_sublist t es).count_le _).trans hcount)).2
  rw [← run] at hobs
  cases e with
  | datagram raw =>
    cases hparse : UdpMessage.parse raw with
    | none => simp [accepts, hparse] at hobs
    | some msg =>
      cases hc : (run (es.take t)).channels[h]? with
      | none => simp [accepts, hparse, hc] at hobs
      | some c =>
        simp only [accepts, hparse, hc] at hobs
        split_ifs at hobs with haccept
        · rw [List.mem_singleton.1 hobs]
          have hlt := (List.getElem?_eq_some_iff.1 hc).1
          rw [hlen] at hlt
          exact ⟨raw, List.mem_of_getElem? he, hparse,
            haccept.2.1.trans (hs.numbered h c hc),
            hlt.trans_le ((List.take_sublist t es).count_le _)⟩
        · exact absurd hobs List.not_mem_nil
  | _ => exact absurd hobs List.not_mem_nil

/-- **Every session receives what was sent to it.** Packets are sent to the sessions of a relay, to
each of them packets that are not confused, and the network loses, repeats and reorders their
datagrams and mixes them with others that are no messages. Whatever the sessions do, every packet
that one of them receives is one that was sent to it, with its whole payload and its address. -/
theorem relay_returns_sent (hconn : conn.Limited M) (ps : ℕ → List Packet)
    (hps : ∀ k, ∀ p ∈ ps k, p.Valid M) (hun : ∀ k, Unambiguous M (ps k)) (es : List Event)
    (hes : ∀ e ∈ es, e.serves = true) (hcount : es.count .newSession ≤ 2 ^ 32)
    (hnet : ∀ raw, .datagram raw ∈ es → UdpMessage.parse raw = none ∨
      ∃ k < 2 ^ 32, raw ∈ sendAll conn (UInt32.ofNat (k + 1)) (ps k)) (h : ℕ) :
    ∀ x ∈ delivered h es, x ∈ (ps h).map Packet.content := by
  have hacc : ∀ m ∈ accepted h es,
      m ∈ (ps h).flatMap (Packet.messages M (UInt32.ofNat (h + 1))) := by
    intro m hm
    obtain ⟨raw, hraw, hparse, hid, hh⟩ := exists_datagram_of_mem_accepted hes hcount hm
    rcases hnet raw hraw with hnone | ⟨k, hk, hmem⟩
    · exact absurd (hnone.symm.trans hparse) (by simp)
    · obtain ⟨m', hm', hparse'⟩ := exists_parse_of_mem_sendAll hconn (hps k) hmem
      obtain rfl : m = m' := Option.some.inj (hparse.symm.trans hparse')
      obtain ⟨p, -, hmp⟩ := List.mem_flatMap.1 hm'
      have hsame := (Packet.sessionId_messages hmp).symm.trans hid
      rwa [eq_of_ofNat_succ_eq hk (hh.trans_le hcount) hsame] at hm'
  intro x hx
  obtain ⟨consumed, hs⟩ := Solo.reassembles_final h es
  rw [delivered_eq hes hcount, hs.out_eq, contents] at hx
  obtain ⟨out, hout, rfl⟩ := List.mem_map.1 hx
  obtain ⟨p, hp, hdata, haddr, -⟩ := exists_packet_of_mem_returned (hps h) (hun h)
    (fun m hm => hacc m (by rw [accepted_eq hes hcount]; exact hs.isPrefix.subset hm)) hout
  exact List.mem_map.2 ⟨p, hp, Prod.ext hdata.symm haddr.symm⟩

/-- Two packets for one session, whose datagrams arrive in the opposite order and then once more,
behind a datagram that is no message. -/
theorem relay_returns_sent_reversed :
    let ps : ℕ → List Packet :=
      fun k => if k = 0 then [⟨[1, 2], "a:1", 7⟩, ⟨[3, 4], "b:2", 8⟩] else []
    let raws := ((ps 0).flatMap (Packet.messages 13 1)).map UdpMessage.wire
    let es : List Event := .newSession :: .datagram [0] ::
      ((raws.reverse ++ raws).map .datagram ++ [.recv 0, .recv 0])
    delivered 0 es = [([3, 4], "b:2"), ([1, 2], "a:1")] ∧
      ∀ x ∈ delivered 0 es, x ∈ (ps 0).map Packet.content := by
  intro ps raws es
  have hps : ∀ k, ∀ p ∈ ps k, p.Valid 13 := by
    intro k p hp
    simp only [ps] at hp
    split_ifs at hp with hk
    · simp only [List.mem_cons, List.not_mem_nil, or_false] at hp
      rcases hp with rfl | rfl
      all_goals exact ⟨by decide, by decide, by decide, by decide⟩
    · exact absurd hp List.not_mem_nil
  have hun : ∀ k, Unambiguous 13 (ps k) := by
    intro k p hp q hq _ hkey
    simp only [ps] at hp hq
    split_ifs at hp hq with hk
    · simp only [List.mem_cons, List.not_mem_nil, or_false] at hp hq
      rcases hp with rfl | rfl <;> rcases hq with rfl | rfl
      all_goals first | rfl | exact absurd hkey (by decide)
    · exact absurd hp List.not_mem_nil
  have hconn := Connection.limited_ofLimit 13
  refine ⟨by decide, relay_returns_sent hconn ps hps hun es (by decide) (by decide)
    (fun raw hraw => ?_) 0⟩
  simp only [es, List.mem_cons, List.mem_append, List.mem_map, List.mem_reverse, reduceCtorEq,
    Event.datagram.injEq, exists_eq_right, or_self, false_or, List.not_mem_nil, or_false] at hraw
  rcases hraw with rfl | hraw
  · exact .inl (by decide)
  · refine .inr ⟨0, by decide, ?_⟩
    rw [sendAll_eq hconn (hps 0)]
    exact hraw

end Relay

end Rsteria.Udp
