import Rsteria.Udp.Identity
import Rsteria.Udp.Solo

/-!
# UDP sessions do not interfere

Runs of the relay in which sessions are opened and dropped, datagrams arrive and sessions poll
`recv`, with at most `2 ^ 32` sessions over the life of the manager. The relay then serves
(`Serving`): the channel `h` has the id `h + 1`, and every live session has its own entry in the
map. Seen from one session, such a run is a run of that session on its own (`solo_follows`), so the
events that do not concern it can be left out without changing what it receives, and it receives the
packets of one reassembler that is fed the messages it accepts.

## Main definitions

* `Udp.Relay.observed`, `Udp.Relay.accepted`, `Udp.Relay.delivered`, `Udp.Relay.due`.
* `Udp.Relay.Event.concerns` : the events that concern a session.
* `Udp.Relay.Serving` : the invariant of these runs.

## Main results

* `Udp.Relay.solo_follows` : the relay, seen from one session.
* `Udp.Relay.sessions_isolated` : what a session receives.
-/

namespace Rsteria.Udp.Relay

open Protocol

/-- The events of a run in which the connection and the client stay. -/
def Event.serves : Event → Bool
  | .newSession => true
  | .dropSession _ => true
  | .datagram _ => true
  | .recv _ => true
  | _ => false

/-- The results of the polls of a session. -/
def observed (h : ℕ) (es : List Event) : List RecvResult :=
  Mealy.collect step (fun s e => if e = .recv h then (s.step e).1.toList else []) new es

/-- The messages that arrived for a session while it was open and its queue was not full. -/
def accepted (h : ℕ) (es : List Event) : List UdpMessage :=
  Mealy.collect step (fun s e => accepts s.channels[h]? e) new es

/-- The packets that a session has received. -/
def delivered (h : ℕ) (es : List Event) : List (Bytes × String) :=
  (observed h es).filterMap packet

variable {s : Relay} {e : Event} {h : ℕ}

/-! ### The relay while it serves -/

/-- The relay in a run of at most `2 ^ 32` sessions: the loop runs, the ids count the sessions, and
every live session has its own entry. -/
structure Serving (s : Relay) : Prop where
  manager : ∃ mgr, s.manager = some mgr ∧ mgr.nextId = UInt32.ofNat (s.channels.length + 1)
  loop : s.loop = .running
  numbered : ∀ (h : ℕ) (c : Channel), s.channels[h]? = some c → c.id = UInt32.ofNat (h + 1)
  registered : s.Registered
  owned : s.Owned

theorem serving_new : new.Serving where
  manager := ⟨_, rfl, rfl⟩
  loop := rfl
  numbered h c hc := by simp [new] at hc
  registered := registered_new
  owned := owned_new

/-- The sender of a live session is alive. -/
theorem Serving.senderAlive (hs : s.Serving) {c : Channel} (hc : s.channels[h]? = some c)
    (hlive : c.live = true) : s.senderAlive h = true := by
  obtain ⟨mgr, hmgr, -⟩ := hs.manager
  have hident : s.identities[h]? = some (c.id, true) := identity_iff.2 ⟨c, hc, rfl, hlive⟩
  exact senderAlive_iff.2 ⟨mgr, hmgr, c.id, hs.owned.registered mgr hmgr h c.id hident⟩

/-- A new session has a fresh id while less than `2 ^ 32` were opened. -/
theorem Serving.fresh (hs : s.Serving) (hlt : e = .newSession → s.channels.length < 2 ^ 32) :
    s.Fresh e := by
  cases e with
  | newSession =>
    intro mgr hmgr h hident
    obtain ⟨mgr', hmgr', hnext⟩ := hs.manager
    rw [Option.some.inj (hmgr.symm.trans hmgr'), hnext] at hident
    obtain ⟨c, hc, hid, -⟩ := identity_iff.1 hident
    have hh := (List.getElem?_eq_some_iff.1 hc).1
    have hlt := hlt rfl
    have heq := eq_of_ofNat_succ_eq (hh.trans hlt) hlt ((hs.numbered h c hc).symm.trans hid)
    omega
  | _ => trivial

/-- The channel of a session that is not registered does not take a message. -/
theorem Serving.map_trySend_eq (hs : s.Serving) {mgr : Manager} (hmgr : s.manager = some mgr)
    {msg : UdpMessage} (hid : msg.sessionId = UInt32.ofNat (h + 1))
    (hlookup : mgr.sessions.lookup msg.sessionId ≠ some h) :
    s.channels[h]?.map (·.trySend msg) = s.channels[h]? := by
  cases hc : s.channels[h]? with
  | none => rfl
  | some c =>
    have hdead : ¬ c.live = true := by
      intro hlive
      have hident : s.identities[h]? = some (msg.sessionId, true) :=
        identity_iff.2 ⟨c, hc, (hs.numbered h c hc).trans hid.symm, hlive⟩
      exact hlookup (hs.owned.registered mgr hmgr h _ hident)
    rw [Option.map_some, Channel.trySend, if_neg fun hlive => hdead hlive.1]

/-- What a datagram does to a channel. -/
theorem Serving.getElem?_dispatch (hs : s.Serving) {mgr : Manager} (hmgr : s.manager = some mgr)
    (msg : UdpMessage) (h : ℕ) :
    (mgr.dispatch s.channels msg)[h]? = if msg.sessionId = UInt32.ofNat (h + 1) then
      s.channels[h]?.map (·.trySend msg) else s.channels[h]? := by
  rw [Manager.dispatch]
  split
  · rename_i k hk
    rw [List.getElem?_modify]
    by_cases hkh : k = h
    · subst hkh
      obtain ⟨c, hc, hid, -⟩ := identity_iff.1 (hs.registered mgr hmgr msg.sessionId k hk)
      rw [if_pos (hid.symm.trans (hs.numbered k c hc)), hc]
      simp
    · split_ifs with hid
      · rw [hs.map_trySend_eq hmgr hid (by simp [hk, hkh])]
        simp
      · simp
  · rename_i hnone
    split_ifs with hid
    · rw [hs.map_trySend_eq hmgr hid (by simp [hnone])]
    · rfl

theorem length_dispatch (mgr : Manager) (channels : List Channel) (msg : UdpMessage) :
    (mgr.dispatch channels msg).length = channels.length := by
  rw [Manager.dispatch]
  split
  · exact List.length_modify ..
  · rfl

/-- A channel that is opened has the next number. -/
theorem Serving.channels_newSession (hs : s.Serving) :
    s.newSession.channels = s.channels ++
      [⟨UInt32.ofNat (s.channels.length + 1), [], Defragger.default, true⟩] := by
  obtain ⟨mgr, hmgr, hnext⟩ := hs.manager
  rw [Relay.newSession, hmgr]
  simp only [hnext]

theorem Serving.ofRelay_newSession (hs : s.Serving) (h : ℕ) :
    Solo.ofRelay h s.newSession = (Solo.step h (Solo.ofRelay h s) .newSession).2 := by
  have hchannels := hs.channels_newSession
  have hlen : s.newSession.channels.length = s.channels.length + 1 := by
    rw [hchannels, List.length_append, List.length_singleton]
  have hchannel : s.newSession.channels[h]? = if s.channels.length = h then
      some ⟨UInt32.ofNat (h + 1), [], Defragger.default, true⟩ else s.channels[h]? := by
    rw [hchannels]
    split_ifs with heq
    · rw [← heq, List.getElem?_concat_length]
    · rcases Nat.lt_or_ge h s.channels.length with hlt | hge
      · exact List.getElem?_append_left hlt
      · rw [List.getElem?_eq_none hge, List.getElem?_eq_none]
        rw [List.length_append, List.length_singleton]
        omega
  rw [Solo.ofRelay, hlen, hchannel]
  rfl

/-- What happens to one channel is seen by its session only. -/
theorem ofRelay_modify {s' : Relay} {k : ℕ} {g : Channel → Channel}
    (hchannels : s'.channels = s.channels.modify k g) (h : ℕ) :
    Solo.ofRelay h s' = if k = h then (Solo.ofRelay h s).modify g else Solo.ofRelay h s := by
  rw [Solo.ofRelay, hchannels, List.length_modify]
  split_ifs with hkh
  · rw [← hkh, List.getElem?_modify_eq]
    rfl
  · rw [List.getElem?_modify_ne _ _ hkh]
    rfl

private theorem set_of_getElem? {channels : List Channel} {k : ℕ} {c : Channel}
    (hc : channels[k]? = some c) : channels.set k c = channels := by
  obtain ⟨hlt, rfl⟩ := List.getElem?_eq_some_iff.1 hc
  exact List.set_getElem_self hlt

theorem channels_dropSession (s : Relay) (k : ℕ) :
    (s.step (.dropSession k)).2.channels = s.channels.modify k Solo.dropped := by
  rw [List.modify_eq_set_getElem?, Relay.step]
  cases hk : s.channels[k]? with
  | none => rfl
  | some c =>
    simp only [Option.map_eq_map, Option.map_some, Option.getD_some, Solo.dropped]
    split_ifs with hlive
    · rfl
    · rw [set_of_getElem? hk]

theorem Serving.recv_eq (hs : s.Serving) {c : Channel} (hc : s.channels[h]? = some c)
    (hlive : c.live = true) :
    (some (s.recv h c).1, (s.recv h c).2.channels) =
      ((Solo.recv c).1, s.channels.set h (Solo.recv c).2) := by
  rw [Relay.recv, hs.senderAlive hc hlive, Solo.recv, if_pos hlive]

theorem Serving.channels_recv (hs : s.Serving) (k : ℕ) :
    (s.step (.recv k)).2.channels = s.channels.modify k fun c => (Solo.recv c).2 := by
  rw [List.modify_eq_set_getElem?, Relay.step]
  cases hk : s.channels[k]? with
  | none => rfl
  | some c =>
    simp only [Option.map_eq_map, Option.map_some, Option.getD_some]
    split_ifs with hlive
    · exact congrArg Prod.snd (hs.recv_eq hk hlive)
    · rw [Solo.recv, if_neg hlive, set_of_getElem? hk]

/-- The answer to a poll is that of the session on its own. -/
theorem Serving.answer_recv (hs : s.Serving) (h : ℕ) :
    (s.step (.recv h)).1 = (Solo.step h (Solo.ofRelay h s) (.recv h)).1 := by
  simp only [Relay.step, Solo.step, if_true, Solo.ofRelay]
  cases hc : s.channels[h]? with
  | none => rfl
  | some c =>
    simp only [Option.bind_some]
    split_ifs with hlive
    · exact congrArg Prod.fst (hs.recv_eq hc hlive)
    · rw [Solo.recv, if_neg hlive]

/-- **A session in the relay behaves as it would on its own.** -/
theorem solo_follows (h : ℕ) :
    Mealy.Follows step (Solo.step h) (Solo.ofRelay h) Serving := by
  intro s e hs
  cases e with
  | newSession => exact hs.ofRelay_newSession h
  | dropSession k => exact ofRelay_modify (channels_dropSession s k) h
  | datagram raw =>
    obtain ⟨mgr, hmgr, -⟩ := hs.manager
    simp only [Relay.step, hs.loop, if_true, Relay.receiveDatagram, Solo.step]
    cases hparse : UdpMessage.parse raw with
    | none => rfl
    | some msg =>
      simp only [hmgr, Solo.ofRelay, length_dispatch, hs.getElem?_dispatch hmgr]
      split_ifs with hid
      · rfl
      · rfl
  | recv k =>
    refine (ofRelay_modify (hs.channels_recv k) h).trans ?_
    simp only [Solo.step]
    split_ifs with hkh
    · rfl
    · rfl
  | closeConnection => rfl
  | readError =>
    simp only [Relay.step]
    split_ifs with hread
    · rfl
    · rfl
  | dropClient => rfl

theorem Serving.length_step (hs : s.Serving) (e : Event) :
    (s.step e).2.channels.length = s.channels.length + if e = .newSession then 1 else 0 :=
  (congrArg Solo.opened (solo_follows 0 s e hs)).trans (Solo.opened_step 0 _ e)

/-- The manager stays, and counts the sessions. -/
theorem Serving.manager_outcome {s' : Relay} (hs : s.Serving) (he : e.serves = true)
    (h : s.Outcome e s') :
    ∃ mgr, s'.manager = some mgr ∧
      mgr.nextId = UInt32.ofNat (s.channels.length + (if e = .newSession then 1 else 0) + 1) := by
  obtain ⟨mgr, hmgr, hnext⟩ := hs.manager
  cases h with
  | newSession =>
    simp only [if_true]
    refine ⟨⟨mgr.nextId + 1, mgr.sessions.insert mgr.nextId s.channels.length⟩, ?_, ?_⟩
    · simp only [Relay.newSession, hmgr]
    · rw [hnext]
      exact (UInt32.ofNat_add (s.channels.length + 1) 1).symm
  | dropSession _ _ =>
    exact ⟨mgr.remove _, by rw [Relay.dropSession, hmgr, Option.map_some], hnext⟩
  | @datagram raw _ => exact ⟨mgr, (s.receiveDatagram_frame raw).1.trans hmgr, hnext⟩
  | recv _ _ => exact ⟨mgr, hmgr, hnext⟩
  | idle hnew _ => exact ⟨mgr, hmgr, by rw [if_neg hnew, hnext]⟩
  | _ => simp [Event.serves] at he

/-- The loop runs on. -/
theorem Serving.loop_outcome {s' : Relay} (hs : s.Serving) (he : e.serves = true)
    (h : s.Outcome e s') : s'.loop = .running := by
  obtain ⟨mgr, hmgr, -⟩ := hs.manager
  cases h with
  | newSession => simp only [Relay.newSession, hmgr, hs.loop]
  | datagram _ =>
    rw [Relay.receiveDatagram]
    split
    · exact hs.loop
    · simp only [hmgr, hs.loop]
  | readError => simp [Event.serves] at he
  | _ => exact hs.loop

/-- The relay keeps serving. -/
theorem Serving.step (hs : s.Serving) (he : e.serves = true)
    (hlt : e = .newSession → s.channels.length < 2 ^ 32) : (s.step e).2.Serving where
  manager := by
    rw [hs.length_step]
    exact hs.manager_outcome he (s.outcome_step e)
  loop := hs.loop_outcome he (s.outcome_step e)
  numbered h c hc := by
    have hfollows := solo_follows h s e hs
    have hid : (Solo.ofRelay h s).Identified h := fun c hc => hs.numbered h c hc
    have hnext := hid.step e
    rw [← hfollows] at hnext
    exact hnext c hc
  registered := hs.registered.outcome (s.outcome_step e)
  owned := (hs.owned.outcome_iff (s.outcome_step e)).2 (hs.fresh hlt)

/-- The relay serves in every run of at most `2 ^ 32` sessions. -/
theorem serving_run {es : List Event} (hes : ∀ e ∈ es, e.serves = true)
    (hcount : es.count .newSession ≤ 2 ^ 32) :
    (run es).Serving ∧ (run es).channels.length = es.count .newSession := by
  induction es using List.reverseRecOn with
  | nil => exact ⟨serving_new, rfl⟩
  | append_singleton es e ih =>
    rw [List.count_append, List.count_singleton] at hcount ⊢
    have hle : es.count .newSession ≤ 2 ^ 32 := (Nat.le_add_right _ _).trans hcount
    obtain ⟨hs, hlen⟩ := ih (fun e he => hes e (List.mem_append_left _ he)) hle
    rw [run, Mealy.final_concat, ← run]
    refine ⟨hs.step (hes e (by simp)) ?_, ?_⟩
    · rintro rfl
      rw [hlen]
      simpa using hcount
    · rw [hs.length_step, hlen]
      simp only [beq_iff_eq]

/-- Every prefix of a run serves. -/
theorem serving_run_take {es : List Event} (hes : ∀ e ∈ es, e.serves = true)
    (hcount : es.count .newSession ≤ 2 ^ 32) (t : ℕ) : (run (es.take t)).Serving :=
  (serving_run (fun e he => hes e (List.mem_of_mem_take he))
    ((List.take_sublist t es).count_le _ |>.trans hcount)).1

/-! ### Seen from one session -/

section Run

variable {es : List Event} (hes : ∀ e ∈ es, e.serves = true)
  (hcount : es.count .newSession ≤ 2 ^ 32)

include hes hcount

theorem observed_eq (h : ℕ) :
    observed h es = Mealy.collect (Solo.step h) (Solo.result h) Solo.new es := by
  refine (solo_follows h).collect_eq (fun s e hs => ?_) (serving_run_take hes hcount)
  rw [Solo.result]
  split_ifs with he
  · rw [he, hs.answer_recv h]
  · rfl

theorem accepted_eq (h : ℕ) : accepted h es = Solo.accepted h es := by
  refine (solo_follows h).collect_eq (fun _ _ _ => ?_) (serving_run_take hes hcount)
  rfl

theorem ofRelay_run (h : ℕ) :
    Solo.ofRelay h (run es) = Mealy.final (Solo.step h) Solo.new es :=
  (solo_follows h).final_eq (serving_run_take hes hcount)

/-- What a session has received is what it has received on its own. -/
theorem delivered_eq (h : ℕ) : delivered h es = Solo.delivered h es := by
  rw [delivered, observed_eq hes hcount, Solo.delivered]

/-- Leaving out the events of other sessions. -/
theorem observed_filter (h : ℕ) :
    observed h (es.filter (Event.concerns h (UInt32.ofNat (h + 1)))) = observed h es := by
  have hes' : ∀ e ∈ es.filter (Event.concerns h (UInt32.ofNat (h + 1))), e.serves = true :=
    fun e he => hes e (List.mem_of_mem_filter he)
  have hcount' : (es.filter (Event.concerns h (UInt32.ofNat (h + 1)))).count .newSession ≤ 2 ^ 32 :=
    (List.filter_sublist.count_le _).trans hcount
  rw [observed_eq hes' hcount', observed_eq hes hcount]
  exact Mealy.collect_filter (fun s e he => Solo.step_of_not_concerns he s) _ _

/-- A poll of an open session returns the packet that is due. -/
theorem answer_recv_of_live {h : ℕ} (hlive : (run es).Live h) :
    ((run es).step (.recv h)).1 = some (Solo.due (accepted h es) (delivered h es).length) := by
  obtain ⟨c, hc, hlive⟩ := hlive
  obtain ⟨consumed, hs⟩ := Solo.reassembles_final h es
  rw [← ofRelay_run hes hcount, ← accepted_eq hes hcount, ← delivered_eq hes hcount] at hs
  rw [(serving_run hes hcount).1.answer_recv h, ← hs.recv_due hc hlive]
  simp only [Solo.step, if_true, Solo.ofRelay, hc, Option.bind_some]

end Run

/-- What a session receives in a run. -/
structure Isolated (h : ℕ) (es : List Event) (id : UInt32) : Prop where
  /-- Datagrams that are not messages with its id, and polls and drops of other sessions, can be
  left out. -/
  observed_filter : observed h (es.filter (Event.concerns h id)) = observed h es
  /-- A poll returns the next packet of one reassembler that is fed the accepted messages, in the
  order of their arrival, or is pending if there is none. -/
  answer : ∀ t, es[t]? = some (.recv h) → (run (es.take t)).Live h →
    (Mealy.outputs step new es)[t]? =
      some (some (Solo.due (accepted h (es.take t)) (delivered h (es.take t)).length))
  /-- The packets received are the first that the reassembler returns. -/
  delivered_prefix : delivered h es <+: contents (Defragger.default.returned (accepted h es))

/-- **UDP sessions do not interfere.** In a run of at most `2 ^ 32` sessions, every session receives
what it would receive without the events of the others, and that is what one reassembler returns for
the messages with its id that arrive while it is open and its queue is not full. -/
theorem sessions_isolated (es : List Event) (hes : ∀ e ∈ es, e.serves = true)
    (hcount : es.count .newSession ≤ 2 ^ 32) (h : ℕ) (hh : h < es.count .newSession) :
    ∃ c, (run es).channels[h]? = some c ∧ Isolated h es c.id := by
  obtain ⟨hs, hlen⟩ := serving_run hes hcount
  have hc := List.getElem?_eq_getElem (hlen.symm ▸ hh)
  refine ⟨_, hc, ?_⟩
  rw [hs.numbered h _ hc]
  refine ⟨observed_filter hes hcount h, fun t ht hlive => ?_, ?_⟩
  · have hes' : ∀ e ∈ es.take t, e.serves = true := fun e he => hes e (List.mem_of_mem_take he)
    have hcount' := ((List.take_sublist t es).count_le Event.newSession).trans hcount
    rw [Mealy.getElem?_outputs, ht, Option.map_some, ← run, answer_recv_of_live hes' hcount' hlive]
  · obtain ⟨consumed, hre⟩ := Solo.reassembles_final h es
    rw [delivered_eq hes hcount, accepted_eq hes hcount, hre.out_eq]
    obtain ⟨rest, hrest⟩ := hre.isPrefix
    rw [← hrest, Defragger.returned_append, contents, contents, List.map_append]
    exact List.prefix_append _ _

/-- Two sessions, with a datagram for each of them and one that is no message. -/
theorem sessions_isolated_two :
    let es : List Event := [.newSession, .newSession, .datagram (message 2 [7] "b:2").wire,
      .datagram (message 1 [5] "a:1").wire, .datagram [0], .recv 1, .recv 0, .dropSession 1,
      .recv 0]
    ∃ c, (run es).channels[0]? = some c ∧ Isolated 0 es c.id :=
  sessions_isolated _ (by decide) (by decide) 0 (by decide)

end Rsteria.Udp.Relay
