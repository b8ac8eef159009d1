import Rsteria.Reconnect

/-!
# The life cycle of the reconnecting client

What holds of `ReconnectableClient` in every run, with any number of calls in any order, connects
that succeed, fail or are cancelled, and connections that die at any time. Every fact is read off
what an event can do (`Action`): after `close()` the lock is free for good, since the call that
connects holds it and `close()` waited for it; while a connect is under way no event but its success
changes the shared fields; and a call of `tcp_connect` has a budget of two connects, which each of
its phases bounds (`Phase.budget`).

## Main definitions

* `Reconnect.State.connecting`, `Reconnect.startsConnect`, `Reconnect.connectSucceeds`.
* `Reconnect.LifecycleSafe` : the properties of a run.

## Main results

* `Reconnect.lifecycleSafe` : every run has them.
-/

namespace Rsteria.Reconnect

/-- The phase in which a call connects. -/
def Phase.isConnecting : Phase → Bool
  | .connecting _ => true
  | _ => false

/-- The phase before the critical section of `current()`. -/
def Phase.isCurrent : Phase → Bool
  | .current _ => true
  | _ => false

/-- The call `i` connects. -/
def State.connecting (s : State) (i : ℕ) : Bool := (s.tasks[i]?).any Phase.isConnecting

/-- The event starts a connect of the call `i`. -/
def startsConnect (i : ℕ) (s : State) (e : Event) : Bool :=
  !s.connecting i && (s.step e).2.connecting i

/-- The event is the success of a connect. -/
def connectSucceeds (s : State) : Event → Bool
  | .connected i => s.connecting i
  | _ => false

/-- The event is the failure or the cancellation of a connect of the call `i`. -/
def Event.abandons (i : ℕ) : Event → Bool
  | .connectFailed j _ => i == j
  | .cancel j => i == j
  | _ => false

/-- The event lets a call of `close()` run its critical section. -/
def closeRuns (s : State) : Event → Bool
  | .acquire i => s.holder.isNone && s.tasks[i]? == some .close
  | _ => false

/-- The event lets a call run the critical section of `current()`. -/
def currentRuns (s : State) : Event → Bool
  | .acquire i => s.holder.isNone && (s.tasks[i]?).any Phase.isCurrent
  | _ => false

/-- The fields of `State` in the source. -/
def State.fields (s : State) : Option ℕ × ℕ × Bool := (s.client, s.count, s.closed)

variable {s s' : State} {e : Event} {answer : Option (Except Error ℕ)} {i : ℕ}

theorem connecting_iff :
    s.connecting i = true ↔ ∃ caller, s.tasks[i]? = some (.connecting caller) := by
  simp only [State.connecting, Option.any_eq_true]
  constructor
  · rintro ⟨p, hp, hconnecting⟩
    cases p <;> simp only [Phase.isConnecting, Bool.false_eq_true] at hconnecting
    exact ⟨_, hp⟩
  · rintro ⟨caller, h⟩
    exact ⟨_, h, rfl⟩

/-- Only the holder of the lock connects. -/
theorem Consistent.holder_eq (hs : Consistent s) (h : s.connecting i = true) :
    s.holder = some i := by
  obtain ⟨caller, htask⟩ := connecting_iff.1 h
  exact hs.locked i caller htask

/-! ### After `close()` -/

/-- After `close()` there is no client, and no call holds the lock across an await. -/
structure ClosedForGood (s : State) : Prop where
  consistent : Consistent s
  closed : s.closed = true
  client : s.client = none
  holder : s.holder = none

/-- Nothing that happens after `close()` undoes it. -/
theorem ClosedForGood.action (hs : ClosedForGood s) (h : Action s e answer s') :
    ClosedForGood s' := by
  have hnext := hs.consistent.action h
  cases h with
  | connect hfree htask hclosed hstale => exact absurd (hclosed.symm.trans hs.closed) (by simp)
  | connected htask =>
    exact absurd (hs.holder.symm.trans (hs.consistent.locked _ _ htask)) (by simp)
  | cancel i => exact ⟨hnext, hs.closed, hs.client, by simp only [hs.holder, ite_self]⟩
  | close hfree htask => exact ⟨hnext, rfl, rfl, hfree⟩
  | retryInvalidate hfree htask => exact ⟨hnext, hs.closed, rfl, hfree⟩
  | invalidate hfree htask => exact ⟨hnext, hs.closed, rfl, hfree⟩
  | connectFailed err htask => exact ⟨hnext, hs.closed, hs.client, rfl⟩
  | _ => exact ⟨hnext, hs.closed, hs.client, hs.holder⟩

theorem ClosedForGood.release (hs : ClosedForGood s) : ClosedForGood s.release :=
  ⟨hs.consistent.release, hs.closed, hs.client, hs.holder⟩

theorem ClosedForGood.step (hs : ClosedForGood s) (e : Event) : ClosedForGood (s.step e).2 :=
  (hs.action (act_action s e)).release

/-- `close()` found the lock free, so no connect is under way that could store a client later. -/
theorem Consistent.closedForGood (hs : Consistent s) (h : closeRuns s e = true) :
    ClosedForGood (s.step e).2 := by
  have hnext := hs.step e
  cases e with
  | acquire i =>
    simp only [closeRuns, Bool.and_eq_true, Option.isNone_iff_eq_none, beq_iff_eq] at h
    obtain ⟨hfree, htask⟩ := h
    refine ⟨hnext, ?_, ?_, ?_⟩ <;>
      simp [State.step, State.act, hfree, htask, State.criticalSection, State.release,
        State.setPhase]
  | _ => simp [closeRuns] at h

/-- After `close()` no call connects. -/
theorem ClosedForGood.connecting_eq_false (hs : ClosedForGood s) (i : ℕ) :
    s.connecting i = false := by
  by_contra h
  have hholder := hs.consistent.holder_eq (Bool.of_not_eq_false h)
  exact absurd (hs.holder.symm.trans hholder) (by simp)

theorem ClosedForGood.startsConnect_eq_false (hs : ClosedForGood s) (i : ℕ) (e : Event) :
    startsConnect i s e = false := by
  rw [startsConnect, (hs.step e).connecting_eq_false i, Bool.and_false]

/-- After `close()` the critical section of `current()` returns the error. -/
theorem ClosedForGood.answer_eq (hs : ClosedForGood s) (h : currentRuns s e = true) :
    (s.step e).1 = some (.error (.protocol "client permanently closed")) := by
  cases e with
  | acquire i =>
    simp only [currentRuns, Bool.and_eq_true, Option.any_eq_true] at h
    obtain ⟨-, p, htask, hp⟩ := h
    cases p <;> simp only [Phase.isCurrent, Bool.false_eq_true] at hp
    simp [State.step, State.act, hs.holder, htask, State.criticalSection, State.current, hs.closed]
  | _ => simp [currentRuns] at h

/-! ### The answers of `current()` -/

/-- The client that `current()` returns is the stored one, which was just connected or was found
open. -/
theorem Action.client_of_ok {c : ℕ} (h : Action s e (some (.ok c)) s') :
    s'.client = some c ∧
      ((∃ i, e = .connected i ∧ s.connecting i = true ∧ c = s.clients) ∨
        (s.client = some c ∧ s.isClosed c = false)) := by
  cases h with
  | reuse hfree htask hclosed hclient hopen => exact ⟨hclient, .inr ⟨hclient, hopen⟩⟩
  | connected htask => exact ⟨rfl, .inl ⟨_, rfl, connecting_iff.2 ⟨_, htask⟩, rfl⟩⟩

/-! ### While a call connects -/

/-- While a call holds the lock, only the success of its connect changes the fields. -/
theorem Action.fields_eq (hs : Consistent s) (hholder : s.holder = some i)
    (h : Action s e answer s') (he : e ≠ .connected i) : s'.fields = s.fields := by
  have hheld : s.holder ≠ none := by simp [hholder]
  cases h with
  | retryInvalidate hfree htask => exact absurd hfree hheld
  | invalidate hfree htask => exact absurd hfree hheld
  | close hfree htask => exact absurd hfree hheld
  | connected htask =>
    have hi := Option.some.inj (hholder.symm.trans (hs.locked _ _ htask))
    exact absurd (congrArg Event.connected hi.symm) he
  | _ => rfl

/-- A call that moves to another phase than connecting starts no connect. -/
theorem connecting_of_set {j : ℕ} {p : Phase} (htasks : s'.tasks = s.tasks.set j p)
    (hp : p.isConnecting = false) (h : s'.connecting i = true) : s.connecting i = true := by
  obtain ⟨caller, htask⟩ := connecting_iff.1 h
  rw [htasks] at htask
  rcases getElem?_set_cases htask with ⟨-, rfl⟩ | ⟨-, hold⟩
  · simp [Phase.isConnecting] at hp
  · exact connecting_iff.2 ⟨caller, hold⟩

theorem Phase.isConnecting_next (caller : Caller) (c : ℕ) :
    (caller.next c).isConnecting = false := by
  cases caller <;> rfl

/-- A connect starts in the critical section of `current()`, without an open client. -/
theorem Action.startConnect (h : Action s e answer s') (hbefore : s.connecting i = false)
    (hafter : s'.connecting i = true) :
    ∃ caller, s.tasks[i]? = some (.current caller) ∧ s' = s.startConnect i caller := by
  have hmove {j : ℕ} {p : Phase} (htasks : s'.tasks = s.tasks.set j p)
      (hp : p.isConnecting = false) : False := by
    have h := connecting_of_set htasks hp hafter
    exact absurd (hbefore.symm.trans h) (by simp)
  cases h with
  | idle e => exact absurd (hbefore.symm.trans hafter) (by simp)
  | die hc => exact absurd (hbefore.symm.trans hafter) (by simp)
  | call op =>
    obtain ⟨caller, htask⟩ := connecting_iff.1 hafter
    rcases getElem?_call_cases htask with hold | ⟨-, hnew⟩
    · have h := connecting_iff.2 ⟨caller, hold⟩
      exact absurd (hbefore.symm.trans h) (by simp)
    · cases op <;> simp [Op.phase] at hnew
  | connect hfree htask hclosed hstale =>
    obtain ⟨caller, hafter⟩ := connecting_iff.1 hafter
    rcases getElem?_set_cases hafter with ⟨rfl, -⟩ | ⟨-, hold⟩
    · exact ⟨_, htask, rfl⟩
    · have h := connecting_iff.2 ⟨caller, hold⟩
      exact absurd (hbefore.symm.trans h) (by simp)
  | reuse => exact (hmove rfl (Phase.isConnecting_next _ _)).elim
  | connected => exact (hmove rfl (Phase.isConnecting_next _ _)).elim
  | _ => exact (hmove rfl rfl).elim

/-- The start of a connect leaves the fields. -/
theorem fields_of_startsConnect (h : startsConnect i s e = true) :
    (s.step e).2.fields = s.fields := by
  rw [startsConnect, Bool.and_eq_true, Bool.not_eq_true'] at h
  obtain ⟨caller, -, hnext⟩ := (act_action s e).startConnect h.1 h.2
  have hfields : (s.act e).2.fields = s.fields := by rw [hnext]; rfl
  exact hfields

/-- The success of a connect ends it. -/
theorem connecting_connected (s : State) (i : ℕ) :
    (s.step (.connected i)).2.connecting i = false := by
  by_contra h
  obtain ⟨caller, htask⟩ := connecting_iff.1 (Bool.of_not_eq_false h)
  have hact : (s.act (.connected i)).2.tasks[i]? = some (.connecting caller) := htask
  simp only [State.act] at hact
  split at hact
  · rcases getElem?_set_cases hact with ⟨-, hnext⟩ | ⟨hne, -⟩
    · exact absurd hnext.symm (Phase.next_ne_connecting _ _ _)
    · exact hne rfl
  · rename_i hidle
    exact hidle caller hact

/-- A connect under way leaves the fields until it succeeds. -/
theorem fields_of_connecting (hs : Consistent s) (h : s.connecting i = true)
    (he : e ≠ .connected i) : (s.step e).2.fields = s.fields := by
  have hfields : (s.act e).2.fields = s.fields :=
    (act_action s e).fields_eq hs (hs.holder_eq h) he
  exact hfields

theorem Action.count_eq (h : Action s e answer s') (he : ∀ i, e ≠ .connected i) :
    s'.count = s.count := by
  cases h with
  | connected htask => exact absurd rfl (he _)
  | _ => rfl

/-- The counter counts the connects that succeed. -/
theorem count_step (s : State) (e : Event) :
    (s.step e).2.count = s.count + (connectSucceeds s e).toNat := by
  change (s.act e).2.count = _
  cases e with
  | connected i =>
    cases hi : s.connecting i with
    | true =>
      obtain ⟨caller, htask⟩ := connecting_iff.1 hi
      simp [State.act, htask, connectSucceeds, hi]
    | false =>
      simp only [State.act, connectSucceeds, hi]
      split
      · rename_i caller htask
        exact absurd (connecting_iff.2 ⟨caller, htask⟩) (by simp [hi])
      · rfl
  | _ => exact (act_action s _).count_eq (by simp)

/-! ### The connects of one call -/

/-- The number of connects that a call can still start: `tcp_connect` runs `current()` once, and
once more if it found its client closed; `udp` runs it once. -/
def Phase.budget : Phase → ℕ
  | .current .tcpConnect => 2
  | .current _ => 1
  | .connecting .tcpConnect => 1
  | .opening _ => 1
  | .invalidating _ => 1
  | _ => 0

/-- The number of connects that the call `i` can still start. -/
def State.budget (i : ℕ) (s : State) : ℕ := (s.tasks[i]?).elim 2 Phase.budget

theorem Op.budget_phase (op : Op) : op.phase.budget ≤ 2 := by
  cases op <;> decide

/-- A call that moves on starts no more connects than before, and one less if it starts one. -/
theorem budget_of_set {j : ℕ} {p q : Phase} (htasks : s'.tasks = s.tasks.set j q)
    (htask : s.tasks[j]? = some p)
    (hle : q.budget + (!p.isConnecting && q.isConnecting).toNat ≤ p.budget) :
    s'.budget i + (!s.connecting i && s'.connecting i).toNat ≤ s.budget i := by
  have hlt := (List.getElem?_eq_some_iff.1 htask).1
  simp only [State.budget, State.connecting, htasks, List.getElem?_set]
  split_ifs with hji
  · subst hji
    simpa [htask] using hle
  · simp

theorem budget_of_done {j : ℕ} (htasks : s'.tasks = s.tasks.set j .done) :
    s'.budget i + (!s.connecting i && s'.connecting i).toNat ≤ s.budget i := by
  cases htask : s.tasks[j]? with
  | some p => exact budget_of_set htasks htask (by simp [Phase.budget, Phase.isConnecting])
  | none =>
    have hge := List.getElem?_eq_none_iff.1 htask
    rw [List.set_eq_of_length_le hge] at htasks
    simp [State.budget, State.connecting, htasks]

theorem Action.budget_le (h : Action s e answer s') :
    s'.budget i + (!s.connecting i && s'.connecting i).toNat ≤ s.budget i := by
  cases h with
  | idle e => simp
  | die hc => simp [State.budget, State.connecting]
  | call op =>
    have hnew := op.budget_phase
    simp only [State.budget, State.connecting]
    cases hi : s.tasks[i]? with
    | some p =>
      have hlt := (List.getElem?_eq_some_iff.1 hi).1
      simp [List.getElem?_append_left hlt, hi]
    | none =>
      cases hj : (s.tasks ++ [op.phase])[i]? with
      | none => simp
      | some q =>
        rcases getElem?_call_cases hj with hold | ⟨-, rfl⟩
        · exact absurd (hi.symm.trans hold) (by simp)
        · cases op <;> decide
  | connect hfree htask hclosed hstale =>
    rename_i caller
    exact budget_of_set rfl htask (by cases caller <;> simp [Phase.budget, Phase.isConnecting])
  | reuse hfree htask hclosed hclient hopen =>
    rename_i caller
    exact budget_of_set rfl htask
      (by cases caller <;> simp [Caller.next, Phase.budget, Phase.isConnecting])
  | retryInvalidate hfree htask =>
    exact budget_of_set rfl htask (by simp [Phase.budget, Phase.isConnecting])
  | connected htask =>
    rename_i caller
    exact budget_of_set rfl htask
      (by cases caller <;> simp [Caller.next, Phase.budget, Phase.isConnecting])
  | retry htask hclosed =>
    exact budget_of_set rfl htask (by simp [Phase.budget, Phase.isConnecting])
  | _ => exact budget_of_done rfl

/-! ### Every run -/

/-- What holds in every run, over the state before each event. -/
structure LifecycleSafe (es : List Event) : Prop where
  /-- Once `close()` has run, the client stays closed and empty, no connect starts, and every
  `current()` returns the error. -/
  closed : ∀ t e, es[t]? = some e → closeRuns (run (es.take t)) e = true → ∀ t' > t,
    (run (es.take t')).closed = true ∧ (run (es.take t')).client = none ∧
      ∀ e', es[t']? = some e' →
        (∀ i, startsConnect i (run (es.take t')) e' = false) ∧
        (currentRuns (run (es.take t')) e' = true → ((run (es.take t')).step e').1 =
          some (.error (.protocol "client permanently closed"))) ∧
        ∀ c, ((run (es.take t')).step e').1 ≠ some (.ok c)
  /-- At most one call connects at a time. -/
  exclusive : ∀ t i j, (run (es.take t)).connecting i = true →
    (run (es.take t)).connecting j = true → i = j
  /-- The counter is the number of connects that succeeded. -/
  counted : ∀ t, (run (es.take t)).count =
    Mealy.tally State.step connectSucceeds new (es.take t)
  /-- A connect that fails or is cancelled leaves the fields as they were when it started. -/
  abandoned : ∀ i t₀ t₁ e₀ e₁, es[t₀]? = some e₀ → startsConnect i (run (es.take t₀)) e₀ = true →
    t₀ < t₁ → (∀ t, t₀ < t → t ≤ t₁ → (run (es.take t)).connecting i = true) →
    es[t₁]? = some e₁ → e₁.abandons i = true →
    (run (es.take (t₁ + 1))).fields = (run (es.take t₀)).fields
  /-- `current()` returns the stored client, which was just connected or was found open. -/
  current : ∀ t e c, es[t]? = some e → ((run (es.take t)).step e).1 = some (.ok c) →
    (run (es.take (t + 1))).client = some c ∧
      ((∃ i, e = .connected i ∧ (run (es.take t)).connecting i = true ∧
          c = (run (es.take t)).clients) ∨
        ((run (es.take t)).client = some c ∧ (run (es.take t)).isClosed c = false))
  /-- One call starts at most two connects. -/
  bounded : ∀ i, Mealy.tally State.step (startsConnect i) new es ≤ 2

theorem run_take_succ {es : List Event} {t : ℕ} (h : es[t]? = some e) :
    run (es.take (t + 1)) = ((run (es.take t)).step e).2 :=
  Mealy.final_take_succ State.step h

/-- The run after `close()`. -/
theorem closedForGood_run {es : List Event} {t t' : ℕ} (h : es[t]? = some e)
    (hclose : closeRuns (run (es.take t)) e = true) (hlt : t < t') :
    ClosedForGood (run (es.take t')) := by
  refine Mealy.final_take_of_le State.step (fun s e hs => hs.step e) (Nat.succ_le_of_lt hlt) ?_
  have hclosed := (consistent_run (es.take t)).closedForGood hclose
  rwa [← run_take_succ h] at hclosed

/-- While a call connects, the fields are those from the start of its connect. -/
theorem fields_run_of_connecting {es : List Event} {t₀ t₁ : ℕ} {e₀ : Event}
    (he₀ : es[t₀]? = some e₀) (hstart : startsConnect i (run (es.take t₀)) e₀ = true)
    (hlt : t₀ < t₁) (hlen : t₁ ≤ es.length)
    (hconnecting : ∀ t, t₀ < t → t ≤ t₁ → (run (es.take t)).connecting i = true) :
    (run (es.take t₁)).fields = (run (es.take t₀)).fields := by
  induction hlt with
  | refl =>
    rw [run_take_succ he₀]
    exact fields_of_startsConnect hstart
  | @step t hle ih =>
    have hbefore := ih (Nat.le_of_succ_le hlen)
      fun t' h h' => hconnecting t' h (Nat.le_succ_of_le h')
    have he := List.getElem?_eq_getElem (Nat.lt_of_succ_le hlen)
    have hafter := hconnecting (t + 1) (Nat.lt_succ_of_lt hle) (Nat.le_refl _)
    rw [run_take_succ he] at hafter ⊢
    rw [← hbefore]
    refine fields_of_connecting (consistent_run _) (hconnecting t hle (Nat.le_succ t)) ?_
    intro hconnected
    rw [hconnected, connecting_connected] at hafter
    exact absurd hafter (by simp)

theorem Event.ne_connected_of_abandons (h : e.abandons i = true) : e ≠ .connected i := by
  rintro rfl
  simp [Event.abandons] at h

/-- **The life cycle of the client is safe** in every run, whatever the calls, the order of the
events and the fate of the connects and connections. -/
theorem lifecycleSafe (es : List Event) : LifecycleSafe es where
  closed t e he hclose t' hlt := by
    have hs := closedForGood_run he hclose hlt
    refine ⟨hs.closed, hs.client, fun e' _ => ⟨fun i => hs.startsConnect_eq_false i e',
      fun hcurrent => hs.answer_eq hcurrent, fun c hok => ?_⟩⟩
    have hact : Action _ e' (some (.ok c)) _ := hok ▸ act_action (run (es.take t')) e'
    have hstored := hact.client_of_ok.1
    exact absurd ((hs.action hact).client.symm.trans hstored) (by simp)
  exclusive t i j hi hj := by
    have hs := consistent_run (es.take t)
    exact Option.some.inj ((hs.holder_eq hi).symm.trans (hs.holder_eq hj))
  counted t := by
    have h := Mealy.final_eq_add_tally State.step count_step new (es.take t)
    rwa [show new.count = 0 from rfl, Nat.zero_add] at h
  abandoned i t₀ t₁ e₀ e₁ he₀ hstart hlt hconnecting he₁ habandons := by
    have hlen := (List.getElem?_eq_some_iff.1 he₁).1
    have hbefore := fields_run_of_connecting he₀ hstart hlt (Nat.le_of_lt hlen) hconnecting
    rw [run_take_succ he₁, ← hbefore]
    exact fields_of_connecting (consistent_run _) (hconnecting t₁ hlt (Nat.le_refl _))
      (Event.ne_connected_of_abandons habandons)
  current t e c he hok := by
    have hact : Action _ e (some (.ok c)) _ := hok ▸ act_action (run (es.take t)) e
    rw [run_take_succ he]
    exact hact.client_of_ok
  bounded i := Mealy.tally_le State.step (φ := State.budget i)
    (fun s e => (act_action s e).budget_le) new es

end Rsteria.Reconnect
