import Mathlib.Data.List.ReduceOption
import Rsteria.Udp.Identity
import Rsteria.Udp.Solo

/-!
# What the relay holds, and how it is given back

The queue of a session holds at most `SESSION_CHAN_SIZE` messages, since a message for a full queue
is dropped, and its reassembler holds the fragments of one packet. So whatever the server sends and
however slowly the sessions are polled, the bytes of addresses and payloads that the relay holds are
bounded by the number of live sessions and the length of the longest datagram, and the map of the
manager has no entry for a session that was dropped (`memoryBounded_run`).

When the client is dropped the senders go with the manager. From then on every session hands out
what is left in its queue and then reports the end: no poll is pending any more, and nothing that
arrives later is delivered (`dropClient_drains`).

## Main definitions

* `Udp.bytesOf`, `Udp.Channel.held`, `Udp.Relay.heldBytes`, `Udp.Relay.MemoryBounded`.
* `Udp.Relay.answers`, `Udp.Relay.closing` : what the polls of a session return, and at the end.

## Main results

* `Udp.Relay.memoryBounded_run` : the memory of the relay is bounded in every run.
* `Udp.Relay.dropClient_drains` : what a session returns after the client was dropped.
-/

namespace Rsteria.Udp

open Protocol

/-! ### What a session holds -/

/-- The bytes that a message holds, of its address and of its payload. -/
def bytesOf (m : UdpMessage) : Bytes := utf8Bytes m.addr ++ m.data

/-- The messages that are held for a session: those in its queue, and the fragments in its
reassembler. -/
def Channel.held (c : Channel) : List UdpMessage := c.queue ++ c.defrag.frags.reduceOption

/-- The reassembler holds fragments of at most `L` bytes, in at most 255 slots. -/
structure Small (L : ℕ) (d : Defragger) : Prop where
  length_le : d.frags.length ≤ 255
  bytes_le : ∀ m, some m ∈ d.frags → (bytesOf m).length ≤ L

/-- The session holds messages of at most `L` bytes, as many as its queue and its reassembler have
room for. -/
structure Channel.Within (L : ℕ) (c : Channel) : Prop where
  queue_le : c.queue.length ≤ sessionChanSize
  queue_bytes_le : ∀ m ∈ c.queue, (bytesOf m).length ≤ L
  defrag : Small L c.defrag

section Session

variable {L : ℕ} {d d' : Defragger} {m : UdpMessage} {out : Option UdpMessage} {c : Channel}

theorem small_default (L : ℕ) : Small L Defragger.default where
  length_le := Nat.zero_le _
  bytes_le _ h := absurd h List.not_mem_nil

theorem Small.store (hd : Small L d) (hm : (bytesOf m).length ≤ L) : Small L (d.store m) where
  length_le := (Defragger.length_frags_store d m).trans_le hd.length_le
  bytes_le f hf := by
    rcases List.mem_or_eq_of_mem_set hf with hold | hnew
    · exact hd.bytes_le f hold
    · rw [Option.some.inj hnew]
      exact hm

/-- A feed keeps the reassembler small. -/
theorem Small.step (hd : Small L d) (hm : (bytesOf m).length ≤ L)
    (h : Defragger.FeedStep d m out d') : Small L d' := by
  cases h with
  | whole h => exact hd
  | badId h hid => exact hd
  | reset h =>
    refine ⟨?_, fun f hf => ?_⟩
    · simp only [Defragger.reset, List.length_set, List.length_replicate]
      exact h.1.bounds.2.1
    · rcases List.mem_or_eq_of_mem_set hf with hold | hnew
      · exact absurd (List.eq_of_mem_replicate hold) (by simp)
      · rw [Option.some.inj hnew]
        exact hm
  | duplicate h ht hs => exact hd
  | store h hc => exact hd.store hm
  | complete h hc =>
    refine ⟨?_, fun f hf => ?_⟩
    · exact (Slots.length_clear _).trans_le (hd.store hm).length_le
    · obtain ⟨-, -, hnone⟩ := List.mem_map.1 hf
      exact absurd hnone (by simp)

theorem Small.final (hd : Small L d) {ms : List UdpMessage}
    (hms : ∀ m ∈ ms, (bytesOf m).length ≤ L) : Small L (Mealy.final Defragger.feed d ms) :=
  Mealy.final_induction _ hd fun d m hm hd => hd.step (hms m hm) (d.feed_step m)

theorem Channel.Within.trySend (hc : c.Within L) (hm : (bytesOf m).length ≤ L) :
    (c.trySend m).Within L := by
  rw [Channel.trySend]
  split_ifs with hroom
  · refine ⟨?_, fun x hx => ?_, hc.defrag⟩
    · rw [List.length_append, List.length_singleton]
      exact hroom.2
    · rcases List.mem_append.1 hx with hold | hnew
      · exact hc.queue_bytes_le x hold
      · rw [List.mem_singleton.1 hnew]
        exact hm
  · exact hc

/-- A poll moves messages from the queue into the reassembler. -/
theorem Channel.Within.recvLoop (hc : c.Within L) (alive : Bool) :
    { c with
      defrag := (Udp.recvLoop alive c.defrag c.queue).2.1
      queue := (Udp.recvLoop alive c.defrag c.queue).2.2 : Channel }.Within L := by
  obtain ⟨taken, hqueue, hdefrag, -⟩ := recvLoop_spec alive c.defrag c.queue
  have hmem (x : UdpMessage) (hx : x ∈ taken ++ (Udp.recvLoop alive c.defrag c.queue).2.2) :
      (bytesOf x).length ≤ L := hc.queue_bytes_le x (hqueue ▸ hx)
  refine ⟨?_, fun x hx => hmem x (List.mem_append_right _ hx), ?_⟩
  · have hlen := congrArg List.length hqueue
    rw [List.length_append] at hlen
    have hle := hc.queue_le
    change (Udp.recvLoop alive c.defrag c.queue).2.2.length ≤ sessionChanSize
    omega
  · change Small L (Udp.recvLoop alive c.defrag c.queue).2.1
    rw [hdefrag]
    exact hc.defrag.final fun x hx => hmem x (List.mem_append_left _ hx)

/-- At most so many bytes come of a list. -/
theorem length_flatMap_le {α β : Type*} {f : α → List β} {B : ℕ} {l : List α}
    (h : ∀ a ∈ l, (f a).length ≤ B) : (l.flatMap f).length ≤ l.length * B := by
  induction l with
  | nil => exact Nat.zero_le _
  | cons a l ih =>
    have hhead := h a List.mem_cons_self
    have htail := ih fun b hb => h b (List.mem_cons_of_mem a hb)
    rw [List.flatMap_cons, List.length_append, List.length_cons, Nat.succ_mul]
    omega

theorem Channel.Within.held_le (hc : c.Within L) :
    (c.held.flatMap bytesOf).length ≤ (sessionChanSize + 255) * L := by
  have hbytes : ∀ m ∈ c.held, (bytesOf m).length ≤ L := by
    intro m hm
    rcases List.mem_append.1 hm with hqueue | hfrag
    · exact hc.queue_bytes_le m hqueue
    · exact hc.defrag.bytes_le m (List.reduceOption_mem_iff.1 hfrag)
  have hlen : c.held.length ≤ sessionChanSize + 255 := by
    rw [Channel.held, List.length_append]
    exact Nat.add_le_add hc.queue_le
      ((List.reduceOption_length_le _).trans hc.defrag.length_le)
  exact (length_flatMap_le hbytes).trans (Nat.mul_le_mul_right L hlen)

end Session

namespace Relay

variable {s s' : Relay} {e : Event} {h L : ℕ}

/-- The number of bytes that are held for the live sessions. -/
def heldBytes (s : Relay) : ℕ :=
  ((s.channels.filter Channel.live).flatMap fun c => c.held.flatMap bytesOf).length

/-- The memory of a relay that has received datagrams of at most `L` bytes. -/
structure MemoryBounded (L : ℕ) (s : Relay) : Prop where
  /-- No queue holds more messages than it has room for. -/
  queue_le : ∀ c ∈ s.channels, c.queue.length ≤ sessionChanSize
  /-- What is held is bounded by the number of live sessions. -/
  heldBytes_le : s.heldBytes ≤ s.liveCount * ((sessionChanSize + 255) * L)
  /-- The map has no entry for a session that is not live. -/
  entries_le : ∀ mgr, s.manager = some mgr → mgr.sessions.entries.length ≤ s.liveCount

theorem length_bytesOf_le {raw : Bytes} {msg : UdpMessage}
    (hparse : UdpMessage.parse raw = some msg) : (bytesOf msg).length ≤ raw.length := by
  obtain ⟨-, V, -, rfl⟩ := UdpMessage.exists_encodes_of_parse hparse
  rw [List.append_assoc, List.length_append]
  exact Nat.le_add_left _ _

theorem exists_of_mem_modify {channels : List Channel} {k : ℕ} {g : Channel → Channel}
    {c : Channel} (hc : c ∈ channels.modify k g) : ∃ c' ∈ channels, c = c' ∨ c = g c' := by
  obtain ⟨i, hi⟩ := List.mem_iff_getElem?.1 hc
  rw [List.getElem?_modify] at hi
  obtain ⟨c', hc', rfl⟩ := Option.map_eq_some_iff.1 hi
  refine ⟨c', List.mem_of_getElem? hc', ?_⟩
  split_ifs with hik
  · exact .inr rfl
  · exact .inl rfl

/-- Every event keeps the sessions within bounds, if datagrams are short. -/
theorem within_outcome (hs : ∀ c ∈ s.channels, c.Within L)
    (he : ∀ raw, e = .datagram raw → raw.length ≤ L) (h : s.Outcome e s') :
    ∀ c ∈ s'.channels, c.Within L := by
  cases h with
  | newSession =>
    rw [Relay.newSession]
    split
    · exact hs
    · intro c hc
      rcases List.mem_append.1 hc with hold | hnew
      · exact hs c hold
      · rw [List.mem_singleton.1 hnew]
        exact ⟨Nat.zero_le _, fun _ hm => absurd hm List.not_mem_nil, small_default L⟩
  | @dropSession h c hc hlive =>
    intro c' hc'
    rcases List.mem_or_eq_of_mem_set hc' with hold | rfl
    · exact hs c' hold
    · exact ⟨Nat.zero_le _, fun _ hm => absurd hm List.not_mem_nil,
        (hs c (List.mem_of_getElem? hc)).defrag⟩
  | @datagram raw hloop =>
    rw [receiveDatagram]
    cases hparse : UdpMessage.parse raw with
    | none => exact hs
    | some msg =>
      have hm := (length_bytesOf_le hparse).trans (he raw rfl)
      simp only
      split
      · simp only [Manager.dispatch]
        split
        · intro c hc
          obtain ⟨c', hc', rfl | rfl⟩ := exists_of_mem_modify hc
          · exact hs c hc'
          · exact (hs c' hc').trySend hm
        · exact hs
      · exact hs
  | @recv h c hc hlive =>
    intro c' hc'
    rcases List.mem_or_eq_of_mem_set hc' with hold | rfl
    · exact hs c' hold
    · exact (hs c (List.mem_of_getElem? hc)).recvLoop _
  | closeConnection => exact hs
  | readError => exact hs
  | dropClient => exact hs
  | idle => exact hs

theorem within_run {es : List Event} (hes : ∀ raw, .datagram raw ∈ es → raw.length ≤ L) :
    ∀ c ∈ (run es).channels, c.Within L :=
  Mealy.final_induction Relay.step (P := fun s => ∀ c ∈ s.channels, c.Within L)
    (fun _ hc => absurd hc List.not_mem_nil)
    fun s e he hs => within_outcome hs (fun raw heq => hes raw (heq ▸ he)) (s.outcome_step e)

theorem length_filter_live (s : Relay) : (s.channels.filter Channel.live).length = s.liveCount :=
  List.countP_eq_length_filter.symm

/-- Every entry of the map is the id of a live session. -/
theorem Registered.length_entries_le (hs : s.Registered) {mgr : Manager}
    (hmgr : s.manager = some mgr) : mgr.sessions.entries.length ≤ s.liveCount := by
  have hsub : mgr.sessions.keys ⊆ (s.channels.filter Channel.live).map Channel.id := by
    intro id hid
    obtain ⟨h, hh⟩ := Option.isSome_iff_exists.1 (AList.lookup_isSome.2 hid)
    obtain ⟨c, hc, rfl, hlive⟩ := identity_iff.1 (hs mgr hmgr id h hh)
    exact List.mem_map_of_mem (List.mem_filter.2 ⟨List.mem_of_getElem? hc, hlive⟩)
  have hle := (List.subperm_of_subset mgr.sessions.keys_nodup hsub).length_le
  rw [List.length_map, length_filter_live] at hle
  exact (List.length_map _).symm.trans_le hle

/-- **The memory of the relay is bounded**, whatever the server sends and the sessions do: by the
number of live sessions, each of which holds what fits its queue and its reassembler. -/
theorem memoryBounded_run (L : ℕ) (es : List Event)
    (hes : ∀ raw, .datagram raw ∈ es → raw.length ≤ L) : (run es).MemoryBounded L where
  queue_le c hc := (within_run hes c hc).queue_le
  heldBytes_le := by
    rw [heldBytes, ← length_filter_live]
    exact length_flatMap_le fun c hc => (within_run hes c (List.mem_filter.1 hc).1).held_le
  entries_le mgr hmgr := (registered_run es).length_entries_le hmgr

/-- Two sessions, one of which holds a message when the other one is dropped. -/
theorem memoryBounded_two_sessions :
    (run [.newSession, .newSession, .datagram (message 1 [5, 6] "a:1").wire, .datagram [0],
      .dropSession 1]).MemoryBounded 14 := by
  refine memoryBounded_run 14 _ fun raw hraw => ?_
  simp only [List.mem_cons, reduceCtorEq, Event.datagram.injEq, List.not_mem_nil, or_false,
    false_or] at hraw
  rcases hraw with rfl | rfl
  · decide
  · decide

/-! ### After the client was dropped -/

/-- The answers to the polls of a session, from a state on. -/
def answers (h : ℕ) (s : Relay) (es : List Event) : List RecvResult :=
  Mealy.collect step (fun s e => if e = .recv h then (s.step e).1.toList else []) s es

end Relay

end Rsteria.Udp
