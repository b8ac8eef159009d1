import Mathlib.Data.List.Chain
import Rsteria.Udp.Session

/-!
# Packets over a lossless channel

A sequence of packets is sent one after the other, and the datagrams arrive in order, without loss
or duplication, at one reassembler. A packet that fits the limit is returned and leaves the
reassembler as it is. A fragmented packet leaves a reassembler that has completed it and still
tracks its packet id and fragment count, the *key* of the packet; the next fragmented packet is
returned if it has another key, and lost if it has the same one (`receive_packet`). So the packets
that arrive are the `survivors` (`received_sendAll`), and every packet arrives if and only if no two
fragmented packets in a row have the same key (`received_sendAll_iff`).

## Main definitions

* `Udp.Packet`, `Udp.Packet.key`, `Udp.sendAll`, `Udp.survivors`.

## Main results

* `Udp.received_sendAll` : the packets that arrive.
* `Udp.received_sendAll_iff` : when every packet arrives.
-/

namespace Rsteria.Udp

open Protocol

/-- A packet to be sent, with the packet id that is drawn for it. -/
structure Packet where
  data : Bytes
  addr : String
  packetId : UInt16
  deriving DecidableEq, Repr

/-- What the receiver is to get. -/
def Packet.content (p : Packet) : Bytes × String := (p.data, p.addr)

/-- The packet can be carried within the limit `M`. -/
structure Packet.Valid (M : ℕ) (p : Packet) : Prop where
  data_ne_nil : p.data ≠ []
  addr_pos : 1 ≤ p.addr.utf8ByteSize
  addr_le : p.addr.utf8ByteSize ≤ 2048
  fits : Fits M (message 0 p.data p.addr)

/-- The packet id and the number of fragments of a packet that has to be fragmented; neither depends
on the session. -/
def Packet.key (M : ℕ) (p : Packet) : Option (UInt16 × ℕ) :=
  if (message 0 p.data p.addr).size ≤ M then none
  else some (p.packetId, fragCount (message 0 p.data p.addr) M)

/-- The datagrams of sending packets one after the other. -/
def sendAll (conn : Connection) (id : UInt32) (ps : List Packet) : List Bytes :=
  ps.flatMap fun p => (send conn id p.packetId p.data p.addr).2

/-- The contents that a reassembler returns (`UdpSession::recv`). -/
def contents (ms : List UdpMessage) : List (Bytes × String) := ms.map fun m => (m.data, m.addr)

/-- The packets that arrive after a packet with the key `last` was completed. -/
def survivors (M : ℕ) : Option (UInt16 × ℕ) → List Packet → List Packet
  | _, [] => []
  | last, p :: ps =>
    let rest := survivors M ((p.key M).or last) ps
    if (p.key M).isSome ∧ p.key M = last then rest else p :: rest

/-- The reassembler after the packet with the key `last` was completed, if any. -/
def Rests : Option (UInt16 × ℕ) → Defragger → Prop
  | none, d => d.frags = []
  | some (pid, k), d => (d.pktId = pid ∧ d.frags.length = k) ∧ d.Spent

section

variable {conn : Connection} {M : ℕ} {d : Defragger} {last : Option (UInt16 × ℕ)}

theorem rests_default : Rests none Defragger.default := rfl

/-- A reassembler at rest tracks no packet with another key. -/
theorem Rests.not_tracks (h : Rests last d) {pid : UInt16} {k : ℕ} (hk : 2 ≤ k)
    (hlast : last ≠ some (pid, k)) : ¬ (d.pktId = pid ∧ d.frags.length = k) := by
  rintro ⟨hpid, hlen⟩
  cases last with
  | none =>
    have hnil : d.frags = [] := h
    rw [hnil, List.length_nil] at hlen
    omega
  | some key =>
    obtain ⟨⟨hpid', hlen'⟩, -⟩ := h
    exact hlast (congrArg some (Prod.ext (hpid'.symm.trans hpid) (hlen'.symm.trans hlen)))

/-- What one packet does: it is returned unless it has the key of the packet completed last. -/
theorem receive_packet (hconn : conn.Limited M) (id : UInt32) {p : Packet} (hp : p.Valid M)
    (hd : Rests last d) :
    contents (d.received (send conn id p.packetId p.data p.addr).2) =
        (if (p.key M).isSome ∧ p.key M = last then [] else [p.content]) ∧
      Rests ((p.key M).or last)
        (Mealy.final Defragger.receive d (send conn id p.packetId p.data p.addr).2) := by
  by_cases hsize : (message 0 p.data p.addr).size ≤ M
  · have hwf : (message id p.data p.addr).WellFormed := ⟨hp.addr_pos, hp.addr_le, hp.data_ne_nil⟩
    obtain ⟨hout, hfinal⟩ := received_whole hwf (UInt8.le_refl 1) d
    have hkey : p.key M = none := if_pos hsize
    have hsend : send conn id p.packetId p.data p.addr =
        (.ok (), [(message id p.data p.addr).wire]) := send_of_fits hconn hsize
    rw [hsend, hout, hfinal, hkey]
    exact ⟨rfl, hd⟩
  · have hkey : p.key M = some (p.packetId, fragCount (message 0 p.data p.addr) M) := if_neg hsize
    have hsize : M < (packetMessage id p.packetId p.data p.addr).size := Nat.not_le.1 hsize
    obtain ⟨hheader, hk⟩ := hp.fits.resolve_left (Nat.not_le.2 hsize)
    have hheader : (packetMessage id p.packetId p.data p.addr).headerSize < M := hheader
    have hwf : (packetMessage id p.packetId p.data p.addr).WellFormed :=
      ⟨hp.addr_pos, hp.addr_le, hp.data_ne_nil⟩
    obtain ⟨hwire, hwire'⟩ := Defragger.receive_map_wire
      (fun f hf => wellFormed_of_mem_sentFragments hwf hheader hf) d
    have hsend : send conn id p.packetId p.data p.addr = (.ok (),
        (sentFragments M (packetMessage id p.packetId p.data p.addr)).map UdpMessage.wire) :=
      send_of_headerSize_lt hconn hsize hheader
    rw [hsend, hwire, hwire', hkey]
    by_cases hlast : some (p.packetId, fragCount (message 0 p.data p.addr) M) = last
    · subst hlast
      obtain ⟨hnone, hrest⟩ := returned_sentFragments_of_spent hsize hheader hk hd.1 hd.2
      rw [hnone, if_pos ⟨rfl, rfl⟩]
      exact ⟨rfl, hrest⟩
    · obtain ⟨hout, hrest⟩ := returned_sentFragments hsize hheader hk
        (hd.not_tracks (two_le_fragCount hsize hheader) (Ne.symm hlast))
      rw [hout, if_neg fun h => hlast h.2]
      exact ⟨rfl, hrest⟩

/-- The packets that arrive are the survivors. -/
theorem received_sendAll (hconn : conn.Limited M) (id : UInt32) {ps : List Packet}
    (hps : ∀ p ∈ ps, p.Valid M) (hd : Rests last d) :
    contents (d.received (sendAll conn id ps)) = (survivors M last ps).map Packet.content := by
  induction ps generalizing d last with
  | nil => rfl
  | cons p ps ih =>
    obtain ⟨hout, hrest⟩ := receive_packet hconn id (hps p List.mem_cons_self) hd
    have ih := ih (fun q hq => hps q (List.mem_cons_of_mem p hq)) hrest
    rw [sendAll, List.flatMap_cons, Defragger.received_append, contents, List.map_append]
    rw [contents, sendAll] at ih
    rw [contents] at hout
    rw [ih, hout, survivors]
    split_ifs with hlost
    · rfl
    · rfl

theorem length_survivors_le (M : ℕ) (last : Option (UInt16 × ℕ)) (ps : List Packet) :
    (survivors M last ps).length ≤ ps.length := by
  induction ps generalizing last with
  | nil => exact le_rfl
  | cons p ps ih =>
    have ih := ih ((p.key M).or last)
    rw [survivors, List.length_cons]
    split_ifs with hlost
    · exact ih.trans (Nat.le_succ _)
    · exact Nat.succ_le_succ ih

/-- Every packet survives when no two keys in a row are the same. -/
theorem survivors_eq_iff (M : ℕ) (last : Option (UInt16 × ℕ)) (ps : List Packet) :
    (survivors M last ps).map Packet.content = ps.map Packet.content ↔
      (last.toList ++ ps.filterMap (Packet.key M)).IsChain (· ≠ ·) := by
  induction ps generalizing last with
  | nil => cases last <;> simp [survivors]
  | cons p ps ih =>
    rw [survivors]
    cases hkey : p.key M with
    | none =>
      have ih := ih last
      rw [List.filterMap_cons, hkey, ← ih]
      simp
    | some key =>
      have ih := ih (some key)
      have hle := length_survivors_le M (some key) ps
      simp only [List.filterMap_cons, hkey, Option.isSome_some, true_and, Option.some_or]
      cases last with
      | none =>
        rw [if_neg (by simp), List.map_cons, List.map_cons, List.cons.injEq]
        simpa using ih
      | some prev =>
        by_cases heq : key = prev
        · subst heq
          rw [if_pos rfl]
          constructor
          · intro h
            have hlen := congrArg List.length h
            simp only [List.length_map, List.length_cons] at hlen
            omega
          · intro h
            simp at h
        · rw [if_neg (by simpa using heq), List.map_cons, List.map_cons, List.cons.injEq]
          simpa [List.isChain_cons_cons, Ne.symm heq] using ih

/-- **When no packet is lost.** On a lossless channel every packet arrives exactly once and in
order, if and only if no fragmented packet has the packet id and the fragment count of the
fragmented packet before it. -/
theorem received_sendAll_iff (hconn : conn.Limited M) (id : UInt32) (ps : List Packet)
    (hps : ∀ p ∈ ps, p.Valid M) :
    contents (Defragger.default.received (sendAll conn id ps)) = ps.map Packet.content ↔
      (ps.filterMap (Packet.key M)).IsChain (· ≠ ·) := by
  rw [received_sendAll hconn id hps rests_default]
  exact survivors_eq_iff M none ps

/-- Two fragmented packets with different ids and an unfragmented one between them. -/
theorem received_three_packets :
    contents (Defragger.default.received (sendAll (.ofLimit 13) 1
      [⟨[1, 2], "a:1", 7⟩, ⟨[3], "b:2", 7⟩, ⟨[4, 5], "a:1", 8⟩])) =
      [([1, 2], "a:1"), ([3], "b:2"), ([4, 5], "a:1")] := by
  refine (received_sendAll_iff (Connection.limited_ofLimit 13) 1
    [⟨[1, 2], "a:1", 7⟩, ⟨[3], "b:2", 7⟩, ⟨[4, 5], "a:1", 8⟩] ?_).2 (by decide)
  intro p hp
  simp only [List.mem_cons, List.not_mem_nil, or_false] at hp
  rcases hp with rfl | rfl | rfl
  all_goals exact ⟨by decide, by decide, by decide, by decide⟩

/-- Two packets of two fragments with the same id: the second one is lost. -/
theorem second_packet_lost :
    ¬ (∀ (conn : Connection) (M : ℕ) (id : UInt32) (ps : List Packet), conn.Limited M →
        (∀ p ∈ ps, p.Valid M ∧ 1 ≤ p.packetId) →
        contents (Defragger.default.received (sendAll conn id ps)) = ps.map Packet.content) ∧
      contents (Defragger.default.received (sendAll (.ofLimit 13) 1
        [⟨[1, 2], "a:1", 7⟩, ⟨[3, 4], "a:1", 7⟩])) = [([1, 2], "a:1")] := by
  have hvalid : ∀ p ∈ [(⟨[1, 2], "a:1", 7⟩ : Packet), ⟨[3, 4], "a:1", 7⟩],
      p.Valid 13 ∧ 1 ≤ p.packetId := by
    intro p hp
    simp only [List.mem_cons, List.not_mem_nil, or_false] at hp
    rcases hp with rfl | rfl
    all_goals exact ⟨⟨by decide, by decide, by decide, by decide⟩, by decide⟩
  have hreceived := received_sendAll (Connection.limited_ofLimit 13) 1
    (fun p hp => (hvalid p hp).1) rests_default
  have hlost : contents (Defragger.default.received (sendAll (.ofLimit 13) 1
      [⟨[1, 2], "a:1", 7⟩, ⟨[3, 4], "a:1", 7⟩])) = [([1, 2], "a:1")] :=
    hreceived.trans (by decide)
  refine ⟨fun h => ?_, hlost⟩
  have hall := h (.ofLimit 13) 13 1 _ (Connection.limited_ofLimit 13) hvalid
  rw [hlost] at hall
  exact absurd hall (by decide)

end

end Rsteria.Udp
