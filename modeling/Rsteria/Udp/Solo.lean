import Rsteria.Udp.Channel
import Rsteria.Udp.Relay

/-!
# A UDP session on its own

A session of the relay, without the manager and the other sessions: it counts the sessions opened,
since its id and its start depend on that, and reacts to the datagrams with its id, to its own polls
and to its own drop.

The session takes the messages that it accepts through one reassembler: those it has consumed,
followed by those in its queue, are those that it has accepted, and what it has returned is what the
reassembler returned for the consumed ones (`Solo.Reassembles`). So a poll returns the next packet
of a reassembler that is fed the accepted messages, if there is one (`Solo.Reassembles.recv_due`).

## Main definitions

* `Udp.Solo`, `Udp.Solo.step`.
* `Udp.Solo.Reassembles` : the session and its reassembler.

## Main results

* `Udp.recvLoop_spec` : what a poll takes from the queue.
* `Udp.Solo.Reassembles.step`, `Udp.Solo.reassembles_final` : the invariant of a run.
* `Udp.Solo.Reassembles.recv_due` : what a poll returns.
-/

namespace Rsteria.Udp

open Protocol

/-! ### Polling the queue -/

/-- What a poll of `recv` takes from the queue: messages up to the first that completes a packet, or
all of them. -/
theorem recvLoop_spec (alive : Bool) (d : Defragger) (queue : List UdpMessage) :
    ∃ taken, queue = taken ++ (recvLoop alive d queue).2.2 ∧
      (recvLoop alive d queue).2.1 = Mealy.final Defragger.feed d taken ∧
      ((∃ m, (recvLoop alive d queue).1 = .ready (.ok (m.data, m.addr)) ∧
          d.returned taken = [m]) ∨
        (recvLoop alive d queue).2.2 = [] ∧ d.returned taken = [] ∧
          (recvLoop alive d queue).1 =
            if alive then .pending else .ready (.error (.protocol "udp session closed"))) := by
  induction queue generalizing d with
  | nil => exact ⟨[], rfl, rfl, .inr ⟨rfl, rfl, rfl⟩⟩
  | cons m queue ih =>
    rw [recvLoop]
    rcases hfeed : d.feed m with ⟨_ | full, d'⟩
    · obtain ⟨taken, hqueue, hdefrag, hresult⟩ := ih d'
      refine ⟨m :: taken, ?_, ?_, ?_⟩
      · exact congrArg (List.cons m) hqueue
      · rw [Mealy.final_cons, hfeed]
        exact hdefrag
      · have hreturned : d.returned (m :: taken) = d'.returned taken := by
          simp [Defragger.returned, hfeed]
        rw [hreturned]
        exact hresult
    · refine ⟨[m], rfl, ?_, .inl ⟨full, rfl, ?_⟩⟩
      · rw [Mealy.final_cons, hfeed]
        rfl
      · simp [Defragger.returned, hfeed]

/-! ### A session on its own -/

/-- The events that concern the session with the channel `h` and the id `id`. All openings count:
they determine which session is the next. -/
def Relay.Event.concerns (h : ℕ) (id : UInt32) : Relay.Event → Bool
  | .dropSession h' => h' == h
  | .datagram raw => (UdpMessage.parse raw).any fun msg => msg.sessionId == id
  | .recv h' => h' == h
  | _ => true

/-- The message of a datagram that arrives for a channel while it is open and its queue is not
full. -/
def accepts (c : Option Channel) : Relay.Event → List UdpMessage
  | .datagram raw =>
    match UdpMessage.parse raw, c with
    | some msg, some c =>
      if c.live ∧ msg.sessionId = c.id ∧ c.queue.length < sessionChanSize then [msg] else []
    | _, _ => []
  | _ => []

/-- The packet of a result. -/
def packet : RecvResult → Option (Bytes × String)
  | .ready (.ok p) => some p
  | _ => none

/-- A session on its own: the number of sessions opened so far, and its channel. -/
structure Solo where
  opened : ℕ
  channel : Option Channel

namespace Solo

open Relay (Event)

/-- The session seen in a relay. -/
def ofRelay (h : ℕ) (s : Relay) : Solo := ⟨s.channels.length, s.channels[h]?⟩

/-- The receiver of a session that is dropped. -/
def dropped (c : Channel) : Channel := if c.live then { c with queue := [], live := false } else c

/-- A poll of `recv`, with the sender of the session alive. -/
def recv (c : Channel) : Option RecvResult × Channel :=
  if c.live then
    let (result, defrag, queue) := recvLoop true c.defrag c.queue
    (some result, { c with defrag := defrag, queue := queue })
  else (none, c)

/-- The session with its channel changed. -/
def modify (s : Solo) (g : Channel → Channel) : Solo := { s with channel := s.channel.map g }

/-- One event, for the session opened as number `h`. -/
def step (h : ℕ) (s : Solo) : Event → Option RecvResult × Solo
  | .newSession =>
    (none, ⟨s.opened + 1,
      if s.opened = h then some ⟨UInt32.ofNat (h + 1), [], Defragger.default, true⟩
      else s.channel⟩)
  | .dropSession h' => (none, if h' = h then s.modify dropped else s)
  | .datagram raw =>
    match UdpMessage.parse raw with
    | some msg =>
      (none, if msg.sessionId = UInt32.ofNat (h + 1) then s.modify (·.trySend msg) else s)
    | none => (none, s)
  | .recv h' =>
    if h' = h then (s.channel.bind fun c => (recv c).1, s.modify fun c => (recv c).2) else (none, s)
  | _ => (none, s)

/-- Before any event. -/
def new : Solo := ⟨0, none⟩

variable {h : ℕ} {s : Solo} {e : Event}

theorem id_trySend (c : Channel) (msg : UdpMessage) : (c.trySend msg).id = c.id := by
  rw [Channel.trySend]
  split_ifs
  · rfl
  · rfl

theorem id_dropped (c : Channel) : (dropped c).id = c.id := by
  rw [dropped]
  split_ifs
  · rfl
  · rfl

theorem id_recv (c : Channel) : (recv c).2.id = c.id := by
  rw [recv]
  split_ifs
  · rfl
  · rfl

theorem modify_eq_self {g : Channel → Channel} (hg : ∀ c, s.channel = some c → g c = c) :
    s.modify g = s := by
  have hchannel : s.channel.map g = s.channel := by
    cases hc : s.channel with
    | none => rfl
    | some c => rw [Option.map_some, hg c hc]
  rw [modify, hchannel]

/-- An event opens a session or changes the channel, which keeps its id. -/
theorem step_cases (h : ℕ) (s : Solo) (e : Event) :
    e = .newSession ∨
      e ≠ .newSession ∧ ∃ g, (∀ c : Channel, (g c).id = c.id) ∧ (step h s e).2 = s.modify g := by
  have hskip : ∃ g, (∀ c : Channel, (g c).id = c.id) ∧ s = s.modify g :=
    ⟨id, fun _ => rfl, (modify_eq_self fun _ _ => rfl).symm⟩
  cases e with
  | newSession => exact .inl rfl
  | dropSession k =>
    refine .inr ⟨by simp, ?_⟩
    simp only [step]
    split_ifs with hkh
    · exact ⟨dropped, id_dropped, rfl⟩
    · exact hskip
  | datagram raw =>
    refine .inr ⟨by simp, ?_⟩
    simp only [step]
    split
    · rename_i msg hmsg
      split_ifs with hid
      · exact ⟨_, fun c => id_trySend c msg, rfl⟩
      · exact hskip
    · exact hskip
  | recv k =>
    refine .inr ⟨by simp, ?_⟩
    simp only [step]
    split_ifs with hkh
    · exact ⟨_, id_recv, rfl⟩
    · exact hskip
  | closeConnection => exact .inr ⟨by simp, hskip⟩
  | readError => exact .inr ⟨by simp, hskip⟩
  | dropClient => exact .inr ⟨by simp, hskip⟩

theorem opened_step (h : ℕ) (s : Solo) (e : Event) :
    (step h s e).2.opened = s.opened + if e = .newSession then 1 else 0 := by
  rcases step_cases h s e with rfl | ⟨hne, g, -, hstep⟩
  · rfl
  · rw [hstep, if_neg hne]
    rfl

/-- The session has the id that its number determines. -/
def Identified (h : ℕ) (s : Solo) : Prop := ∀ c, s.channel = some c → c.id = UInt32.ofNat (h + 1)

theorem Identified.modify (hs : s.Identified h) {g : Channel → Channel}
    (hg : ∀ c, (g c).id = c.id) : (s.modify g).Identified h := by
  intro c hc
  obtain ⟨c', hc', rfl⟩ := Option.map_eq_some_iff.1 hc
  rw [hg, hs c' hc']

theorem Identified.step (hs : s.Identified h) (e : Event) : (s.step h e).2.Identified h := by
  rcases step_cases h s e with rfl | ⟨-, g, hg, hstep⟩
  · intro c hc
    simp only [Solo.step] at hc
    split_ifs at hc with hh
    · rw [← Option.some.inj hc]
    · exact hs c hc
  · rw [hstep]
    exact hs.modify hg

/-! ### What a session on its own returns -/

/-- The result of an event, if it is a poll of the session. -/
def result (h : ℕ) (s : Solo) (e : Event) : List RecvResult :=
  if e = .recv h then (step h s e).1.toList else []

/-- The session has accepted the messages `acc` and consumed the first of them, `consumed`, through
its reassembler, and has returned the packets `out`; the rest is in its queue. -/
structure Reassembles (h : ℕ) (s : Solo) (acc consumed : List UdpMessage)
    (out : List (Bytes × String)) : Prop where
  identified : s.Identified h
  unopened : s.opened ≤ h → s.channel = none
  acc_eq_nil : s.channel = none → acc = []
  isPrefix : consumed <+: acc
  out_eq : out = contents (Defragger.default.returned consumed)
  queue : ∀ c, s.channel = some c → c.live = true →
    acc = consumed ++ c.queue ∧ c.defrag = Mealy.final Defragger.feed Defragger.default consumed

theorem reassembles_new (h : ℕ) : Reassembles h new [] [] [] where
  identified c hc := by simp [new] at hc
  unopened _ := rfl
  acc_eq_nil _ := rfl
  isPrefix := List.nil_prefix
  out_eq := rfl
  queue c hc := by simp [new] at hc

variable {acc consumed : List UdpMessage} {out : List (Bytes × String)}

/-- A poll of a live session returns what its reassembler returns for the messages that it takes. -/
theorem Reassembles.recv_spec (hs : Reassembles h s acc consumed out) {c : Channel}
    (hc : s.channel = some c) (hlive : c.live = true) :
    ∃ taken, acc = consumed ++ taken ++ (recv c).2.queue ∧
      (recv c).2.defrag = Mealy.final Defragger.feed Defragger.default (consumed ++ taken) ∧
      ((∃ m, (recv c).1 = some (.ready (.ok (m.data, m.addr))) ∧
          Defragger.default.returned (consumed ++ taken) =
            Defragger.default.returned consumed ++ [m]) ∨
        (recv c).2.queue = [] ∧ (recv c).1 = some .pending ∧
          Defragger.default.returned (consumed ++ taken) =
            Defragger.default.returned consumed) := by
  obtain ⟨hacc, hdefrag⟩ := hs.queue c hc hlive
  obtain ⟨taken, hqueue, hfinal, hresult⟩ := recvLoop_spec true c.defrag c.queue
  rw [recv, if_pos hlive]
  refine ⟨taken, ?_, ?_, ?_⟩
  · rw [hacc, List.append_assoc]
    exact congrArg (consumed ++ ·) hqueue
  · rw [Mealy.final_append, ← hdefrag]
    exact hfinal
  · rw [Defragger.returned_append, ← hdefrag]
    rcases hresult with ⟨m, hready, hreturned⟩ | ⟨hempty, hreturned, hpending⟩
    · exact .inl ⟨m, congrArg some hready, by rw [hreturned]⟩
    · exact .inr ⟨hempty, congrArg some hpending, by rw [hreturned, List.append_nil]⟩

/-- An event that leaves the channel, or takes it out of service, changes nothing. -/
theorem Reassembles.congr {s' : Solo} (hs : Reassembles h s acc consumed out)
    (hid : s'.Identified h) (hopened : s'.opened ≤ h → s'.channel = none)
    (hnone : s'.channel = none → s.channel = none)
    (hqueue : ∀ c', s'.channel = some c' → c'.live = true →
      ∃ c, s.channel = some c ∧ c.live = true ∧ c'.queue = c.queue ∧ c'.defrag = c.defrag) :
    Reassembles h s' acc consumed out where
  identified := hid
  unopened := hopened
  acc_eq_nil hc := hs.acc_eq_nil (hnone hc)
  isPrefix := hs.isPrefix
  out_eq := hs.out_eq
  queue c' hc' hlive' := by
    obtain ⟨c, hc, hlive, hq, hd⟩ := hqueue c' hc' hlive'
    rw [hq, hd]
    exact hs.queue c hc hlive

theorem Reassembles.newSession (hs : Reassembles h s acc consumed out) :
    Reassembles h (step h s .newSession).2 acc consumed out := by
  by_cases hh : s.opened = h
  · have hnone := hs.unopened hh.le
    have hacc := hs.acc_eq_nil hnone
    have hconsumed : consumed = [] := List.prefix_nil.1 (hacc ▸ hs.isPrefix)
    have hchannel : (step h s .newSession).2.channel =
        some ⟨UInt32.ofNat (h + 1), [], Defragger.default, true⟩ := if_pos hh
    refine ⟨hs.identified.step _, fun hle => ?_, fun hc => ?_, hs.isPrefix, hs.out_eq,
      fun c hc _ => ?_⟩
    · have hlt : s.opened + 1 ≤ h := hle
      omega
    · exact absurd (hchannel.symm.trans hc) (by simp)
    · rw [← Option.some.inj (hchannel.symm.trans hc), hacc, hconsumed]
      exact ⟨rfl, rfl⟩
  · have hchannel : (step h s .newSession).2.channel = s.channel := if_neg hh
    refine hs.congr (hs.identified.step _) (fun hle => ?_) (fun hc => ?_) (fun c hc hlive => ?_)
    · rw [hchannel]
      exact hs.unopened (Nat.le_of_succ_le hle)
    · rwa [hchannel] at hc
    · exact ⟨c, hchannel ▸ hc, hlive, rfl, rfl⟩

theorem Reassembles.dropped (hs : Reassembles h s acc consumed out) :
    Reassembles h (s.modify Solo.dropped) acc consumed out := by
  refine hs.congr (hs.identified.modify id_dropped) (fun hle => ?_) (fun hc => ?_)
    (fun c hc hlive => ?_)
  · rw [Solo.modify, hs.unopened hle, Option.map_none]
  · exact Option.map_eq_none_iff.1 hc
  · obtain ⟨c', -, rfl⟩ := Option.map_eq_some_iff.1 hc
    rw [Solo.dropped] at hlive
    split_ifs at hlive with hlive'
    exact absurd hlive hlive'

/-- What a channel accepts is what it puts into its queue. -/
theorem accepts_eq {raw : Bytes} {msg : UdpMessage} (hparse : UdpMessage.parse raw = some msg)
    {c : Channel} (hid : msg.sessionId = c.id) :
    accepts (some c) (.datagram raw) =
      if c.live ∧ c.queue.length < sessionChanSize then [msg] else [] := by
  simp only [accepts, hparse, hid, true_and]

/-- A message for the session is accepted, or changes nothing. -/
theorem Reassembles.trySend (hs : Reassembles h s acc consumed out) {raw : Bytes}
    {msg : UdpMessage} (hparse : UdpMessage.parse raw = some msg)
    (hid : msg.sessionId = UInt32.ofNat (h + 1)) :
    Reassembles h (s.modify (·.trySend msg)) (acc ++ accepts s.channel (.datagram raw))
      consumed out := by
  have hident := hs.identified.modify fun c => id_trySend c msg
  have hopened : (s.modify (·.trySend msg)).opened ≤ h →
      (s.modify (·.trySend msg)).channel = none := by
    intro hle
    rw [modify, hs.unopened hle, Option.map_none]
  refine ⟨hident, hopened, fun hnone => ?_, hs.isPrefix.trans (List.prefix_append ..), hs.out_eq,
    fun c' hc' hlive' => ?_⟩
  · have hnone := Option.map_eq_none_iff.1 hnone
    simp only [hs.acc_eq_nil hnone, hnone, accepts, hparse, List.append_nil]
  · obtain ⟨c, hc, rfl⟩ := Option.map_eq_some_iff.1 hc'
    rw [hc, accepts_eq hparse (hid.trans (hs.identified c hc).symm)]
    rw [Channel.trySend] at hlive' ⊢
    split_ifs at hlive' ⊢ with haccept
    · obtain ⟨hacc, hdefrag⟩ := hs.queue c hc haccept.1
      exact ⟨by rw [hacc, List.append_assoc], hdefrag⟩
    · rw [List.append_nil]
      exact hs.queue c hc hlive'

/-- A datagram for another session is not accepted. -/
theorem accepts_eq_nil (hs : s.Identified h) {raw : Bytes} {msg : UdpMessage}
    (hparse : UdpMessage.parse raw = some msg) (hid : msg.sessionId ≠ UInt32.ofNat (h + 1)) :
    accepts s.channel (.datagram raw) = [] := by
  cases hc : s.channel with
  | none => simp only [accepts, hparse]
  | some c =>
    simp only [accepts, hparse]
    rw [if_neg]
    rintro ⟨-, heq, -⟩
    exact hid (heq.trans (hs c hc))

/-- A poll moves messages from the queue through the reassembler. -/
theorem Reassembles.recv (hs : Reassembles h s acc consumed out) :
    ∃ consumed', Reassembles h (s.modify fun c => (Solo.recv c).2) acc consumed'
      (out ++ (s.channel.bind fun c => (Solo.recv c).1).toList.filterMap packet) := by
  by_cases hopen : ∃ c, s.channel = some c ∧ c.live = true
  · obtain ⟨c, hc, hlive⟩ := hopen
    have hnext : (s.modify fun c => (Solo.recv c).2).channel = some (Solo.recv c).2 := by
      rw [modify, hc, Option.map_some]
    have hopened : ¬ s.opened ≤ h := by
      intro hle
      exact absurd (hc.symm.trans (hs.unopened hle)) (by simp)
    obtain ⟨taken, hacc, hdefrag, hresult⟩ := hs.recv_spec hc hlive
    rw [hc, Option.bind_some]
    refine ⟨consumed ++ taken, hs.identified.modify id_recv, fun hle => absurd hle hopened,
      fun hnone => absurd (hnext.symm.trans hnone) (by simp), ?_, ?_, fun c' hc' _ => ?_⟩
    · rw [hacc]
      exact List.prefix_append _ _
    · rcases hresult with ⟨m, hready, hreturned⟩ | ⟨-, hpending, hreturned⟩
      · rw [hready, hreturned, hs.out_eq, contents, contents, List.map_append]
        rfl
      · rw [hpending, hreturned, hs.out_eq]
        exact List.append_nil _
    · rw [← Option.some.inj (hnext.symm.trans hc')]
      exact ⟨hacc, hdefrag⟩
  · have hidle (c : Channel) (hc : s.channel = some c) : Solo.recv c = (none, c) := by
      rw [Solo.recv, if_neg fun hlive => hopen ⟨c, hc, hlive⟩]
    have hnone : (s.channel.bind fun c => (Solo.recv c).1) = none := by
      rw [Option.bind_eq_none_iff]
      intro c hc
      rw [hidle c hc]
    rw [modify_eq_self fun c hc => by rw [hidle c hc], hnone, Option.toList_none,
      List.filterMap_nil, List.append_nil]
    exact ⟨consumed, hs⟩

/-- One event. -/
theorem Reassembles.step (hs : Reassembles h s acc consumed out) (e : Event) :
    ∃ consumed', Reassembles h (s.step h e).2 (acc ++ accepts s.channel e) consumed'
      (out ++ (result h s e).filterMap packet) := by
  have hskip : ∃ consumed', Reassembles h s (acc ++ []) consumed' (out ++ []) := by
    rw [List.append_nil, List.append_nil]
    exact ⟨consumed, hs⟩
  cases e with
  | newSession =>
    refine ⟨consumed, ?_⟩
    have hnew := hs.newSession
    rwa [← List.append_nil acc, ← List.append_nil out] at hnew
  | dropSession k =>
    simp only [Solo.step]
    split_ifs with hkh
    · refine ⟨consumed, ?_⟩
      have hdrop := hs.dropped
      rwa [← List.append_nil acc, ← List.append_nil out] at hdrop
    · exact hskip
  | datagram raw =>
    simp only [Solo.step]
    cases hparse : UdpMessage.parse raw with
    | none =>
      have hnil : accepts s.channel (.datagram raw) = [] := by
        simp only [accepts, hparse]
      rw [hnil]
      exact hskip
    | some msg =>
      simp only
      split_ifs with hid
      · refine ⟨consumed, ?_⟩
        have hsend := hs.trySend hparse hid
        rwa [← List.append_nil out] at hsend
      · rw [accepts_eq_nil hs.identified hparse hid]
        exact hskip
  | recv k =>
    simp only [Solo.step, result, Event.recv.injEq]
    split_ifs with hkh
    · have hrecv := hs.recv
      rwa [← List.append_nil acc] at hrecv
    · exact hskip
  | closeConnection => exact hskip
  | readError => exact hskip
  | dropClient => exact hskip

/-- The packets that the session has received. -/
def delivered (h : ℕ) (es : List Event) : List (Bytes × String) :=
  (Mealy.collect (step h) (result h) new es).filterMap packet

/-- The messages that the session has accepted. -/
def accepted (h : ℕ) (es : List Event) : List UdpMessage :=
  Mealy.collect (step h) (fun s e => accepts s.channel e) new es

/-- The invariant of a run. -/
theorem reassembles_final (h : ℕ) (es : List Event) :
    ∃ consumed, Reassembles h (Mealy.final (step h) new es) (accepted h es) consumed
      (delivered h es) := by
  induction es using List.reverseRecOn with
  | nil => exact ⟨[], reassembles_new h⟩
  | append_singleton es e ih =>
    obtain ⟨consumed, hs⟩ := ih
    rw [Mealy.final_concat, accepted, Mealy.collect_concat, delivered, Mealy.collect_concat,
      List.filterMap_append]
    exact hs.step e

/-- The packet in place `n` of a reassembler that is fed `acc`, if there is one. -/
def due (acc : List UdpMessage) (n : ℕ) : RecvResult :=
  match (contents (Defragger.default.returned acc))[n]? with
  | some p => .ready (.ok p)
  | none => .pending

/-- A poll returns the next packet of a reassembler that is fed the accepted messages, if there is
one. -/
theorem Reassembles.recv_due (hs : Reassembles h s acc consumed out) {c : Channel}
    (hc : s.channel = some c) (hlive : c.live = true) :
    (Solo.recv c).1 = some (due acc out.length) := by
  obtain ⟨taken, hacc, hdefrag, hresult⟩ := hs.recv_spec hc hlive
  have hreturned : Defragger.default.returned acc =
      Defragger.default.returned (consumed ++ taken) ++
        (Solo.recv c).2.defrag.returned (Solo.recv c).2.queue := by
    rw [hacc, Defragger.returned_append, hdefrag]
  rw [due, hreturned, hs.out_eq]
  rcases hresult with ⟨m, hready, htaken⟩ | ⟨hempty, hpending, htaken⟩
  · have hnext : (contents (Defragger.default.returned consumed ++ [m] ++
        (Solo.recv c).2.defrag.returned (Solo.recv c).2.queue))[
          (contents (Defragger.default.returned consumed)).length]? =
        some (m.data, m.addr) := by
      simp [contents]
    rw [hready, htaken, hnext]
  · have hnil : (Solo.recv c).2.defrag.returned [] = [] := rfl
    rw [hpending, htaken, hempty, hnil, List.append_nil, List.getElem?_eq_none le_rfl]

/-- An event for another session changes nothing. -/
theorem step_of_not_concerns {e : Event} (he : e.concerns h (UInt32.ofNat (h + 1)) = false)
    (s : Solo) : (step h s e).2 = s ∧ result h s e = [] := by
  cases e with
  | dropSession k =>
    have hne : k ≠ h := by simpa [Event.concerns] using he
    exact ⟨if_neg hne, rfl⟩
  | datagram raw =>
    refine ⟨?_, rfl⟩
    simp only [step]
    cases hparse : UdpMessage.parse raw with
    | none => rfl
    | some msg =>
      have hne : msg.sessionId ≠ UInt32.ofNat (h + 1) := by
        simpa only [Event.concerns, hparse, Option.any_some, beq_eq_false_iff_ne] using he
      exact if_neg hne
  | recv k =>
    have hne : k ≠ h := by simpa [Event.concerns] using he
    exact ⟨by rw [step, if_neg hne], if_neg (by simpa using hne)⟩
  | _ => simp [Event.concerns] at he

end Solo

end Rsteria.Udp
