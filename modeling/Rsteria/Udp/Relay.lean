import Mathlib.Data.List.AList
import Rsteria.Error
import Rsteria.Protocol.Reassembly

/-!
# The UDP relay of a connection

`UdpSessionManager`, `receive_loop` and `UdpSession::recv` of `src/udp.rs`, as a machine that takes
one event after the other. The channels of all sessions ever opened are numbered; the manager maps
a session id to the channel whose sender it holds. The only strong reference to the manager is that
of the client: when the client is dropped, the manager goes and the senders go with it. A channel
has a live sender as long as the manager lives and maps some id to it.

`receive_loop` ends when `read_datagram` returns an error, which it does after the connection was
closed, or when it finds the manager gone. It does not touch the map when it ends, so the channels
of the sessions that are registered then stay open, and so do those of sessions opened later. The
closure reaches every session exactly in the runs in which the loop ends while no session is
registered and no session is opened afterwards (`closureReaches_iff`).

## Main definitions

* `Udp.Relay`, `Udp.Relay.Event`, `Udp.Relay.step`.
* `Udp.Relay.senderAlive` : a channel has a live sender.
* `Udp.Relay.ClosureReaches` : the closure of the connection has reached every session.

## Main results

* `Udp.Relay.outcome_step` : what an event can do.
* `Udp.Relay.registered_run` : only live sessions are registered.
* `Udp.Relay.closureReaches_iff` : when the closure reaches every session.
-/

namespace Rsteria.Udp

open Protocol

/-- `SESSION_CHAN_SIZE`. -/
def sessionChanSize : ℕ := 1024

/-- A session and the receiving side of its channel. -/
structure Channel where
  id : UInt32
  queue : List UdpMessage
  defrag : Defragger
  live : Bool

/-- `UdpSessionManager`: the next session id, and the channel of each registered one. -/
structure Manager where
  nextId : UInt32
  sessions : AList fun _ : UInt32 => ℕ

/-- The state of `receive_loop`: it runs, or ended for one of its two reasons. -/
inductive LoopState where
  | running
  | readError
  | managerDropped
  deriving DecidableEq, Repr

/-- The relay of one connection. -/
structure Relay where
  manager : Option Manager
  channels : List Channel
  loop : LoopState
  connClosed : Bool

/-- Put a message into the queue of a channel, unless it is full or its receiver is gone. -/
def Channel.trySend (c : Channel) (msg : UdpMessage) : Channel :=
  if c.live ∧ c.queue.length < sessionChanSize then { c with queue := c.queue ++ [msg] } else c

/-- `UdpSessionManager::dispatch`. -/
def Manager.dispatch (mgr : Manager) (channels : List Channel) (msg : UdpMessage) :
    List Channel :=
  match mgr.sessions.lookup msg.sessionId with
  | some h => channels.modify h (·.trySend msg)
  | none => channels

/-- `UdpSessionManager::remove`. -/
def Manager.remove (mgr : Manager) (id : UInt32) : Manager :=
  { mgr with sessions := mgr.sessions.erase id }

/-- What a poll of `UdpSession::recv` answers. -/
abbrev RecvResult := Poll (Except Error (Bytes × String))

/-- The loop of `UdpSession::recv`: take messages from the queue until one is complete. An empty
queue is an error if no sender is left. -/
def recvLoop (senderAlive : Bool) :
    Defragger → List UdpMessage → RecvResult × Defragger × List UdpMessage
  | defrag, [] =>
    (if senderAlive then .pending else .ready (.error (.protocol "udp session closed")), defrag, [])
  | defrag, msg :: queue =>
    match defrag.feed msg with
    | (some full, defrag) => (.ready (.ok (full.data, full.addr)), defrag, queue)
    | (none, defrag) => recvLoop senderAlive defrag queue

namespace Relay

/-- `UdpSessionManager::new`. -/
def new : Relay where
  manager := some ⟨1, ∅⟩
  channels := []
  loop := .running
  connClosed := false

/-- What happens to the relay; sessions are given by the number of their channel. -/
inductive Event where
  /-- A session is opened. -/
  | newSession
  /-- A session is dropped. -/
  | dropSession (h : ℕ)
  /-- `read_datagram` returns a datagram to the loop. -/
  | datagram (raw : Bytes)
  /-- A session polls `recv`. -/
  | recv (h : ℕ)
  /-- The connection is closed. -/
  | closeConnection
  /-- `read_datagram` returns an error to the loop. -/
  | readError
  /-- The client is dropped, and the connection closed with it. -/
  | dropClient
  deriving DecidableEq

/-- Some live sender can still put messages into the channel. -/
def senderAlive (s : Relay) (h : ℕ) : Bool :=
  s.manager.any fun mgr => mgr.sessions.entries.any fun entry => entry.2 == h

/-- `UdpSessionManager::new_session`. -/
def newSession (s : Relay) : Relay :=
  match s.manager with
  | none => s
  | some mgr =>
    let id := mgr.nextId
    { s with
      manager := some ⟨id + 1, mgr.sessions.insert id s.channels.length⟩
      channels := s.channels ++ [⟨id, [], Defragger.default, true⟩] }

/-- `Drop for UdpSession`: remove the session from the map, if the manager is still there, and drop
the receiver. -/
def dropSession (s : Relay) (h : ℕ) (c : Channel) : Relay :=
  { s with
    manager := s.manager.map (·.remove c.id)
    channels := s.channels.set h { c with queue := [], live := false } }

/-- `receive_loop` on a datagram; one that is not a message is skipped. -/
def receiveDatagram (s : Relay) (raw : Bytes) : Relay :=
  match UdpMessage.parse raw with
  | none => s
  | some msg =>
    match s.manager with
    | some mgr => { s with channels := mgr.dispatch s.channels msg }
    | none => { s with loop := .managerDropped }

/-- `UdpSession::recv`, polled once. -/
def recv (s : Relay) (h : ℕ) (c : Channel) : RecvResult × Relay :=
  let (result, defrag, queue) := recvLoop (s.senderAlive h) c.defrag c.queue
  (result, { s with channels := s.channels.set h { c with defrag := defrag, queue := queue } })

/-- One event. An event that cannot happen in a state, such as a poll of a dropped session, leaves
it as it is. -/
def step (s : Relay) : Event → Option RecvResult × Relay
  | .newSession => (none, s.newSession)
  | .dropSession h =>
    match s.channels[h]? with
    | some c => if c.live then (none, s.dropSession h c) else (none, s)
    | none => (none, s)
  | .datagram raw => if s.loop = .running then (none, s.receiveDatagram raw) else (none, s)
  | .recv h =>
    match s.channels[h]? with
    | some c =>
      if c.live then
        let (result, s) := s.recv h c
        (some result, s)
      else (none, s)
    | none => (none, s)
  | .closeConnection => (none, { s with connClosed := true })
  | .readError =>
    if s.connClosed ∧ s.loop = .running then (none, { s with loop := .readError }) else (none, s)
  | .dropClient => (none, { s with manager := none, connClosed := true })

/-- The relay after a sequence of events. -/
def run (es : List Event) : Relay := Mealy.final step new es

/-! ### What an event can do -/

variable {s s' : Relay} {mgr : Manager} {e : Event} {h : ℕ}

/-- What an event can do to the relay; one that cannot happen leaves it as it is. -/
inductive Outcome (s : Relay) : Event → Relay → Prop where
  | newSession : Outcome s .newSession s.newSession
  | dropSession {h : ℕ} {c : Channel} (hc : s.channels[h]? = some c) (hlive : c.live = true) :
    Outcome s (.dropSession h) (s.dropSession h c)
  | datagram {raw : Bytes} (hloop : s.loop = .running) :
    Outcome s (.datagram raw) (s.receiveDatagram raw)
  | recv {h : ℕ} {c : Channel} (hc : s.channels[h]? = some c) (hlive : c.live = true) :
    Outcome s (.recv h) (s.recv h c).2
  | closeConnection : Outcome s .closeConnection { s with connClosed := true }
  | readError (hclosed : s.connClosed = true) (hloop : s.loop = .running) :
    Outcome s .readError { s with loop := .readError }
  | dropClient : Outcome s .dropClient { s with manager := none, connClosed := true }
  | idle {e : Event} (hnew : e ≠ .newSession)
    (hread : e = .readError → ¬ (s.connClosed = true ∧ s.loop = .running)) : Outcome s e s

theorem outcome_step (s : Relay) (e : Event) : s.Outcome e (s.step e).2 := by
  cases e with
  | newSession => exact .newSession
  | dropSession h =>
    simp only [Relay.step]
    split
    · rename_i c hc
      split_ifs with hlive
      · exact .dropSession hc hlive
      · exact .idle (by simp) (by simp)
    · exact .idle (by simp) (by simp)
  | datagram raw =>
    simp only [Relay.step]
    split_ifs with hloop
    · exact .datagram hloop
    · exact .idle (by simp) (by simp)
  | recv h =>
    simp only [Relay.step]
    split
    · rename_i c hc
      split_ifs with hlive
      · exact .recv hc hlive
      · exact .idle (by simp) (by simp)
    · exact .idle (by simp) (by simp)
  | closeConnection => exact .closeConnection
  | readError =>
    simp only [Relay.step]
    split_ifs with hread
    · exact .readError hread.1 hread.2
    · exact .idle (by simp) fun _ => hread
  | dropClient => exact .dropClient

/-! ### Senders and registered sessions -/

/-- A channel has a live sender when the manager lives and has an id for it. -/
theorem senderAlive_iff :
    s.senderAlive h = true ↔
      ∃ mgr, s.manager = some mgr ∧ ∃ id, mgr.sessions.lookup id = some h := by
  simp only [senderAlive, Option.any_eq_true, List.any_eq_true, beq_iff_eq]
  refine exists_congr fun mgr => and_congr_right fun _ => ?_
  constructor
  · rintro ⟨⟨id, h'⟩, hmem, rfl⟩
    exact ⟨id, AList.mem_lookup_iff.2 hmem⟩
  · rintro ⟨id, hid⟩
    exact ⟨⟨id, h⟩, AList.mem_lookup_iff.1 hid, rfl⟩

theorem senderAlive_of_manager_eq_none (hs : s.manager = none) (h : ℕ) :
    s.senderAlive h = false := by
  rw [senderAlive, hs]
  rfl

theorem senderAlive_congr {s' : Relay} (hs : s'.manager = s.manager) (h : ℕ) :
    s'.senderAlive h = s.senderAlive h := by
  rw [senderAlive, senderAlive, hs]

/-- The session with the channel `h` was opened and not dropped. -/
def Live (s : Relay) (h : ℕ) : Prop := ∃ c, s.channels[h]? = some c ∧ c.live = true

/-- The ids of the sessions ever opened, and which of them are live. -/
def identities (s : Relay) : List (UInt32 × Bool) := s.channels.map fun c => (c.id, c.live)

theorem identity_iff {id : UInt32} {live : Bool} :
    s.identities[h]? = some (id, live) ↔
      ∃ c, s.channels[h]? = some c ∧ c.id = id ∧ c.live = live := by
  rw [identities, List.getElem?_map, Option.map_eq_some_iff]
  simp only [Prod.mk.injEq]

/-- Every registered session is live, under the id that it is registered with. -/
def Registered (s : Relay) : Prop :=
  ∀ mgr, s.manager = some mgr → ∀ id h, mgr.sessions.lookup id = some h →
    s.identities[h]? = some (id, true)

theorem Registered.live (hs : s.Registered) (halive : s.senderAlive h = true) : s.Live h := by
  obtain ⟨mgr, hmgr, id, hid⟩ := senderAlive_iff.1 halive
  obtain ⟨c, hc, -, hlive⟩ := identity_iff.1 (hs mgr hmgr id h hid)
  exact ⟨c, hc, hlive⟩

theorem registered_new : new.Registered := by
  intro mgr hmgr id h hid
  rw [← Option.some.inj hmgr] at hid
  simp at hid

theorem Registered.congr {s' : Relay} (hs : s.Registered) (hmgr : s'.manager = s.manager)
    (hident : s'.identities = s.identities) : s'.Registered := by
  intro mgr hmgr'
  rw [hident]
  exact hs mgr (hmgr.symm.trans hmgr')

theorem Registered.newSession (hs : s.Registered) : s.newSession.Registered := by
  rw [Relay.newSession]
  split
  · exact hs
  · rename_i mgr hmgr
    intro mgr' hmgr' id h hid
    rw [← Option.some.inj hmgr'] at hid
    simp only [identities, List.map_append, List.map_singleton]
    by_cases heq : id = mgr.nextId
    · subst heq
      simp only [AList.lookup_insert, Option.some.injEq] at hid
      rw [← hid, List.getElem?_append_right (by simp)]
      simp
    · rw [AList.lookup_insert_ne heq] at hid
      have hold := hs mgr hmgr id h hid
      rw [List.getElem?_append_left]
      · exact hold
      · exact (List.getElem?_eq_some_iff.1 hold).1

/-- Dropping a session removes what is registered under its id, be it its own channel or that of a
later session with the same id. -/
theorem Registered.dropSession (hs : s.Registered) {c : Channel} (hc : s.channels[h]? = some c) :
    (s.dropSession h c).Registered := by
  intro mgr' hmgr' id h' hid
  obtain ⟨mgr, hmgr, rfl⟩ := Option.map_eq_some_iff.1 hmgr'
  have hne : id ≠ c.id := by
    rintro rfl
    rw [Manager.remove, AList.lookup_erase] at hid
    exact absurd hid (by simp)
  rw [Manager.remove, AList.lookup_erase_ne hne] at hid
  have hold := hs mgr hmgr id h' hid
  have hne' : h ≠ h' := by
    rintro rfl
    obtain ⟨c', hc', hid', -⟩ := identity_iff.1 hold
    rw [← Option.some.inj (hc.symm.trans hc')] at hid'
    exact hne hid'.symm
  simp only [identities, Relay.dropSession, List.map_set]
  rwa [List.getElem?_set_ne hne']

theorem identities_dispatch (mgr : Manager) (channels : List Channel) (msg : UdpMessage) :
    (mgr.dispatch channels msg).map (fun c => (c.id, c.live)) =
      channels.map fun c => (c.id, c.live) := by
  rw [Manager.dispatch]
  split
  · apply List.ext_getElem?
    intro i
    rw [List.getElem?_map, List.getElem?_map, List.getElem?_modify, Option.map_eq_map,
      Option.map_map]
    refine congrArg (Option.map · channels[i]?) (funext fun c => ?_)
    simp only [Function.comp_apply, Channel.trySend]
    split_ifs <;> rfl
  · rfl

/-- A datagram leaves the manager and the identities of the sessions as they are. -/
theorem receiveDatagram_frame (s : Relay) (raw : Bytes) :
    (s.receiveDatagram raw).manager = s.manager ∧
      (s.receiveDatagram raw).identities = s.identities := by
  rw [receiveDatagram]
  split
  · exact ⟨rfl, rfl⟩
  · split
    · exact ⟨rfl, identities_dispatch _ _ _⟩
    · exact ⟨rfl, rfl⟩

/-- So does a poll of `recv`. -/
theorem recv_frame {c : Channel} (hc : s.channels[h]? = some c) :
    (s.recv h c).2.manager = s.manager ∧ (s.recv h c).2.identities = s.identities := by
  refine ⟨rfl, ?_⟩
  obtain ⟨hlt, rfl⟩ := List.getElem?_eq_some_iff.1 hc
  have hself : (s.channels.map fun c => (c.id, c.live)).set h (s.channels[h].id, s.channels[h].live)
      = s.channels.map fun c => (c.id, c.live) := by
    rw [← List.map_set, List.set_getElem_self]
  simp only [Relay.recv, identities, List.map_set]
  exact hself

/-- Only live sessions are registered, after every event. -/
theorem Registered.outcome (hs : s.Registered) (h : s.Outcome e s') : s'.Registered := by
  cases h with
  | newSession => exact hs.newSession
  | dropSession hc _ => exact hs.dropSession hc
  | @datagram raw _ =>
    exact hs.congr (s.receiveDatagram_frame raw).1 (s.receiveDatagram_frame raw).2
  | recv hc _ => exact hs.congr (recv_frame hc).1 (recv_frame hc).2
  | closeConnection => exact hs
  | readError => exact hs
  | dropClient =>
    intro mgr hmgr
    exact absurd hmgr (by simp)
  | idle => exact hs

theorem registered_run (es : List Event) : (run es).Registered :=
  Mealy.final_induction Relay.step registered_new fun s e _ hs => hs.outcome (s.outcome_step e)

/-! ### When the closure of the connection reaches every session -/

/-- If the loop has ended because `read_datagram` returned an error, and the client is still there,
then no session has a live sender, and a session whose queue is empty receives an error. -/
structure ClosureReaches (s : Relay) : Prop where
  no_sender : s.loop = .readError → s.manager.isSome → ∀ h, s.Live h → s.senderAlive h = false
  recv_error : s.loop = .readError → s.manager.isSome → ∀ h c, s.channels[h]? = some c →
    c.live = true → c.queue = [] →
    (s.step (.recv h)).1 = some (.ready (.error (.protocol "udp session closed")))

/-- The loop ends only while no session is registered, and no session is opened afterwards. -/
def ClosureSafe (s : Relay) : Event → Prop
  | .readError => s.connClosed = true → s.loop = .running → ∀ h, s.senderAlive h = false
  | .newSession => s.manager.isSome → s.loop ≠ .readError
  | _ => True

/-- No channel has a live sender after the loop has ended on an error, with the client still
there. -/
def SendersGone (s : Relay) : Prop :=
  s.loop = .readError → s.manager.isSome → ∀ h, s.senderAlive h = false

/-- A session without a sender and without messages receives an error. -/
theorem recv_of_senderAlive_eq_false {c : Channel} (hc : s.channels[h]? = some c)
    (hlive : c.live = true) (hqueue : c.queue = []) (hsender : s.senderAlive h = false) :
    (s.step (.recv h)).1 = some (.ready (.error (.protocol "udp session closed"))) := by
  simp only [Relay.step, hc, hlive, if_true, Relay.recv, hsender, hqueue, recvLoop]
  rfl

theorem closureReaches_iff_sendersGone (hs : s.Registered) : s.ClosureReaches ↔ s.SendersGone := by
  constructor
  · intro hreach hloop hmgr h
    by_contra halive
    have halive : s.senderAlive h = true := by simpa using halive
    exact absurd (hreach.no_sender hloop hmgr h (hs.live halive)) (by simp [halive])
  · intro hsender
    exact ⟨fun hloop hmgr h _ => hsender hloop hmgr h, fun hloop hmgr h c hc hlive hqueue =>
      recv_of_senderAlive_eq_false hc hlive hqueue (hsender hloop hmgr h)⟩

theorem senderAlive_newSession (hmgr : s.manager = some mgr) :
    s.newSession.senderAlive s.channels.length = true := by
  rw [senderAlive_iff, Relay.newSession, hmgr]
  exact ⟨_, rfl, mgr.nextId, AList.lookup_insert _⟩

theorem senderAlive_dropSession {c : Channel} {h' : ℕ}
    (halive : (s.dropSession h c).senderAlive h' = true) : s.senderAlive h' = true := by
  obtain ⟨mgr', hmgr', id, hid⟩ := senderAlive_iff.1 halive
  obtain ⟨mgr, hmgr, rfl⟩ := Option.map_eq_some_iff.1 hmgr'
  refine senderAlive_iff.2 ⟨mgr, hmgr, id, ?_⟩
  by_cases heq : id = c.id
  · rw [heq, Manager.remove, AList.lookup_erase] at hid
    exact absurd hid (by simp)
  · rwa [Manager.remove, AList.lookup_erase_ne heq] at hid

/-- The senders stay gone when neither the loop ends nor a sender is added. -/
theorem SendersGone.mono {s' : Relay} (hs : s.SendersGone)
    (hloop : s'.loop = .readError → s.loop = .readError)
    (hmgr : s'.manager.isSome → s.manager.isSome)
    (hsender : ∀ h, s'.senderAlive h = true → s.senderAlive h = true) : s'.SendersGone := by
  intro hloop' hmgr' h
  by_contra halive
  have hfalse := hs (hloop hloop') (hmgr hmgr') h
  rw [hsender h (by simpa using halive)] at hfalse
  exact absurd hfalse (by simp)

theorem loop_receiveDatagram {raw : Bytes} (hloop : (s.receiveDatagram raw).loop = .readError) :
    s.loop = .readError := by
  rw [receiveDatagram] at hloop
  split at hloop
  · exact hloop
  · split at hloop
    · exact hloop
    · exact absurd hloop (by simp)

theorem sendersGone_newSession_iff :
    s.newSession.SendersGone ↔ s.SendersGone ∧ s.ClosureSafe .newSession := by
  cases hmgr : s.manager with
  | none =>
    have hsame : s.newSession = s := by rw [Relay.newSession, hmgr]
    rw [hsame]
    exact ⟨fun hs => ⟨hs, by simp [ClosureSafe, hmgr]⟩, fun hs => hs.1⟩
  | some mgr =>
    have hloop : s.newSession.loop = s.loop := by rw [Relay.newSession, hmgr]
    have hmgr' : s.newSession.manager.isSome := by
      rw [Relay.newSession, hmgr]
      rfl
    constructor
    · intro hs
      have hne : s.loop ≠ .readError := by
        intro hread
        have hfalse := hs (hloop.trans hread) hmgr' s.channels.length
        rw [senderAlive_newSession hmgr] at hfalse
        exact absurd hfalse (by simp)
      exact ⟨fun hread => absurd hread hne, fun _ => hne⟩
    · rintro ⟨-, hsafe⟩ hread
      exact absurd (hloop.symm.trans hread) (hsafe (by rw [hmgr]; rfl))

/-- The senders are gone after an event exactly when the event is safe. -/
theorem SendersGone.outcome_iff (hs : s.SendersGone) (h : s.Outcome e s') :
    s'.SendersGone ↔ s.ClosureSafe e := by
  cases h with
  | newSession => exact sendersGone_newSession_iff.trans (and_iff_right hs)
  | dropSession _ _ =>
    exact iff_of_true
      (hs.mono id (by simp [Relay.dropSession]) fun _ => senderAlive_dropSession) trivial
  | @datagram raw _ =>
    have hmgr := (s.receiveDatagram_frame raw).1
    exact iff_of_true (hs.mono loop_receiveDatagram (by rw [hmgr]; exact id)
      fun h halive => (senderAlive_congr hmgr h).symm.trans halive) trivial
  | recv _ _ => exact iff_of_true (hs.mono id id fun _ halive => halive) trivial
  | closeConnection => exact iff_of_true (hs.mono id id fun _ halive => halive) trivial
  | readError hclosed hloop =>
    constructor
    · intro hgone _ _ h
      cases hmgr : s.manager with
      | none => exact senderAlive_of_manager_eq_none hmgr h
      | some mgr => exact hgone rfl (by simp [hmgr]) h
    · intro hsafe _ _ h
      exact hsafe hclosed hloop h
  | dropClient => exact iff_of_true (fun _ hmgr => absurd hmgr (by simp)) trivial
  | idle hnew hread =>
    refine iff_of_true hs ?_
    cases e with
    | newSession => exact absurd rfl hnew
    | readError => exact fun hclosed hloop => absurd ⟨hclosed, hloop⟩ (hread rfl)
    | _ => trivial

/-- **When the closure of the connection reaches every session.** In a run the closure has reached
every session at all times, if and only if the loop ends on an error only while no session is
registered, and no session is opened afterwards. -/
theorem closureReaches_iff (es : List Event) :
    (∀ t ≤ es.length, (run (es.take t)).ClosureReaches) ↔
      ∀ t e, es[t]? = some e → (run (es.take t)).ClosureSafe e := by
  have hnew : new.SendersGone := fun hloop => absurd hloop (by decide)
  have hiff := Mealy.forall_take_iff Relay.step trivial hnew (fun _ _ _ => trivial)
    (fun s e (_ : True) hs => SendersGone.outcome_iff hs (s.outcome_step e)) es
  exact (forall₂_congr fun t _ => closureReaches_iff_sendersGone (registered_run _)).trans hiff

/-- A session that was opened before the connection was closed stays pending. -/
theorem session_pending_after_closure :
    ¬ (∀ es, (run es).ClosureReaches) ∧
      (Mealy.outputs Relay.step new [.newSession, .closeConnection, .readError, .recv 0])[3]? =
        some (some .pending) := by
  refine ⟨fun h => ?_, by decide⟩
  have hsender := (h [.newSession, .closeConnection, .readError]).no_sender (by decide) (by decide)
    0 ⟨⟨1, [], Defragger.default, true⟩, rfl, rfl⟩
  exact absurd hsender (by decide)

end Relay

end Rsteria.Udp
