import Mathlib.Data.List.Perm.Subperm
import Rsteria.Reconnect.Lifecycle

/-!
# The connections of the reconnecting client

A connection lives as long as a reference to its client does: in the shared state, or in a call. A
call of `tcp_connect` keeps the reference to its first client through the whole retry, so the calls
hold more clients than they use: `Phase.found` is the one that a call has found closed,
`Phase.inUse` the one that it opens a stream on. Since the first is closed already (`FoundClosed`),
every open connection is the stored one or in use, and `Drop` closes the others.

## Main definitions

* `Reconnect.Phase.found`, `Reconnect.Phase.inUse` : the clients that a call holds, and why.
* `Reconnect.State.openClients` : the clients with an open connection.
* `Reconnect.Accounted` : the properties of a run.

## Main results

* `Reconnect.accounted` : every run has them.
-/

namespace Rsteria.Reconnect

/-- The client that a call has found closed. -/
def Phase.found : Phase → Option ℕ
  | .current (.retry old) => some old
  | .connecting (.retry old) => some old
  | .invalidating c => some c
  | .reopening old _ => some old
  | _ => none

/-- The client on which a call opens a stream. -/
def Phase.inUse : Phase → Option ℕ
  | .opening c => some c
  | .reopening _ c => some c
  | _ => none

/-- The clients with an open connection. -/
def State.openClients (s : State) : List ℕ := (List.range s.clients).filter fun c => !s.isClosed c

variable {s s' : State} {e : Event} {answer : Option (Except Error ℕ)} {c i : ℕ} {p q : Phase}

theorem Phase.holds_eq (p : Phase) : p.holds = p.found.toList ++ p.inUse.toList := by
  cases p with
  | current caller => cases caller <;> rfl
  | connecting caller => cases caller <;> rfl
  | _ => rfl

theorem Phase.found_next (caller : Caller) (c : ℕ) :
    (caller.next c).found = (Phase.current caller).found := by
  cases caller <;> rfl

theorem Phase.found_connecting (caller : Caller) :
    (Phase.connecting caller).found = (Phase.current caller).found := by
  cases caller <;> rfl

theorem Op.found_phase (op : Op) : op.phase.found = none := by
  cases op <;> rfl

theorem mem_openClients : c ∈ s.openClients ↔ c < s.clients ∧ s.isClosed c = false := by
  rw [State.openClients, List.mem_filter, List.mem_range, Bool.not_eq_true']

/-! ### The clients that were found closed -/

/-- The clients that calls have found closed are closed. -/
def FoundClosed (s : State) : Prop :=
  ∀ p ∈ s.tasks, ∀ c, p.found = some c → s.isClosed c = true

/-- A call moves to a phase with a client that it had found closed, or finds so now. -/
theorem FoundClosed.set (hs : FoundClosed s) (htasks : s'.tasks = s.tasks.set i q)
    (hconns : s'.closedConns = s.closedConns)
    (hq : ∀ c, q.found = some c → s.isClosed c = true) : FoundClosed s' := by
  intro p hp c hc
  rw [State.isClosed, hconns]
  rw [htasks] at hp
  rcases List.mem_or_eq_of_mem_set hp with hold | rfl
  · exact hs p hold c hc
  · exact hq c hc

theorem FoundClosed.of_task (hs : FoundClosed s) (htask : s.tasks[i]? = some p)
    (hq : q.found = p.found) : ∀ c, q.found = some c → s.isClosed c = true :=
  fun c hc => hs p (List.mem_of_getElem? htask) c (hq.symm.trans hc)

theorem FoundClosed.action (hs : FoundClosed s) (h : Action s e answer s') : FoundClosed s' := by
  cases h with
  | idle e => exact hs
  | die hc =>
    intro p hp c hfound
    exact isClosed_iff.2 (List.mem_cons_of_mem _ (isClosed_iff.1 (hs p hp c hfound)))
  | call op =>
    intro p hp c hfound
    rcases List.mem_append.1 hp with hold | hnew
    · exact hs p hold c hfound
    · rw [List.mem_singleton.1 hnew, op.found_phase] at hfound
      exact absurd hfound (by simp)
  | connect hfree htask hclosed hstale =>
    exact hs.set rfl rfl (hs.of_task htask (Phase.found_connecting _))
  | reuse hfree htask hclosed hclient hopen =>
    exact hs.set rfl rfl (hs.of_task htask (Phase.found_next _ _))
  | retryInvalidate hfree htask => exact hs.set rfl rfl (hs.of_task htask rfl)
  | connected htask =>
    exact hs.set rfl rfl
      (hs.of_task htask ((Phase.found_next _ _).trans (Phase.found_connecting _).symm))
  | @retry i c htask hclosed =>
    refine hs.set rfl rfl fun c' hc' => ?_
    rwa [← Option.some.inj hc']
  | _ => exact hs.set rfl rfl (by simp [Phase.found])

theorem FoundClosed.step (hs : FoundClosed s) (e : Event) : FoundClosed (s.step e).2 := by
  intro p hp c hc
  exact isClosed_release (hs.action (act_action s e) p hp c hc)

theorem foundClosed_run (es : List Event) : FoundClosed (run es) :=
  Mealy.final_induction State.step (P := FoundClosed)
    (fun p hp => absurd hp (by simp [new])) fun _ e _ hs => hs.step e

/-! ### What `Drop` leaves open -/

/-- The client is stored, or a call opens a stream on it. -/
def State.Needed (s : State) (c : ℕ) : Prop :=
  s.client = some c ∨ ∃ p ∈ s.tasks, p.inUse = some c

theorem referenced_iff :
    s.referenced c = true ↔ s.client = some c ∨ ∃ p ∈ s.tasks, c ∈ p.holds := by
  simp [State.referenced]

theorem mem_holds_iff : c ∈ p.holds ↔ p.found = some c ∨ p.inUse = some c := by
  rw [Phase.holds_eq, List.mem_append, Option.mem_toList, Option.mem_toList]

/-- Clients that are needed are referenced, and no other open ones are. -/
theorem FoundClosed.referenced_iff_needed (hs : FoundClosed s) (hopen : s.isClosed c = false) :
    s.referenced c = true ↔ s.Needed c := by
  rw [referenced_iff]
  refine or_congr_right ⟨?_, ?_⟩
  · rintro ⟨p, hp, hholds⟩
    rcases mem_holds_iff.1 hholds with hfound | huse
    · exact absurd ((hs p hp c hfound).symm.trans hopen) (by simp)
    · exact ⟨p, hp, huse⟩
  · rintro ⟨p, hp, huse⟩
    exact ⟨p, hp, mem_holds_iff.2 (.inr huse)⟩

/-- `Drop` closes the connections that are open and not needed. -/
theorem FoundClosed.isClosed_release_iff (hs : FoundClosed s) (hlt : c < s.clients)
    (hopen : s.isClosed c = false) : s.release.isClosed c = true ↔ ¬ s.Needed c := by
  rw [← hs.referenced_iff_needed hopen, isClosed_iff]
  have hold : c ∉ s.closedConns := fun h => absurd ((isClosed_iff.2 h).symm.trans hopen) (by simp)
  simp only [State.release, List.mem_append, hold, false_or, List.mem_filter, List.mem_range, hlt,
    true_and, Bool.not_eq_true', Bool.not_eq_true]

/-- After an event every open connection is needed. -/
theorem FoundClosed.needed_step (hs : FoundClosed s) (e : Event) (hlt : c < (s.step e).2.clients)
    (hopen : (s.step e).2.isClosed c = false) : (s.step e).2.Needed c := by
  have hact := hs.action (act_action s e)
  have hbefore : (s.act e).2.isClosed c = false := by
    by_contra h
    have hclosed := isClosed_release (Bool.of_not_eq_false h)
    exact absurd (hclosed.symm.trans hopen) (by simp)
  by_contra hneeded
  have hclosed := (hact.isClosed_release_iff hlt hbefore).2 hneeded
  exact absurd (hclosed.symm.trans hopen) (by simp)

/-- In every state of a run, an open connection is needed. -/
theorem needed_run (es : List Event) (hopen : c ∈ (run es).openClients) : (run es).Needed c := by
  have hinv : FoundClosed (run es) ∧ ∀ c ∈ (run es).openClients, (run es).Needed c := by
    refine Mealy.final_induction State.step
      (P := fun s => FoundClosed s ∧ ∀ c ∈ s.openClients, s.Needed c)
      ⟨foundClosed_run [], fun c hc => absurd hc (by simp [State.openClients, new])⟩
      fun s e _ hs => ⟨hs.1.step e, fun c hc => ?_⟩
    obtain ⟨hlt, hopen⟩ := mem_openClients.1 hc
    exact hs.1.needed_step e hlt hopen
  exact hinv.2 c hopen

/-! ### After `close()` -/

/-- The flag is set by the critical section of `close()` only. -/
theorem closedForGood_action (hs : Consistent s) (hclosed : s.closed = true → ClosedForGood s)
    (h : Action s e answer s') : s'.closed = true → ClosedForGood s' := by
  intro hnext
  by_cases hbefore : s.closed = true
  · exact (hclosed hbefore).action h
  · have hconsistent := hs.action h
    cases h with
    | close hfree htask => exact ⟨hconsistent, rfl, rfl, hfree⟩
    | _ => exact absurd hnext hbefore

theorem closedForGood_of_closed (es : List Event) (h : (run es).closed = true) :
    ClosedForGood (run es) := by
  have hinv : Consistent (run es) ∧ ((run es).closed = true → ClosedForGood (run es)) := by
    refine Mealy.final_induction State.step
      (P := fun s => Consistent s ∧ (s.closed = true → ClosedForGood s))
      ⟨consistent_new, fun h => absurd h (by simp [new])⟩
      fun s e _ hs => ⟨hs.1.step e, fun h => ?_⟩
    exact (closedForGood_action hs.1 hs.2 (act_action s e) h).release
  exact hinv.2 h

/-! ### Every run -/

/-- What holds of the connections in the state that a run reaches, and when it takes one event
more. -/
structure Accounted (es : List Event) : Prop where
  /-- No connection is leaked: an open one is stored, or a call opens a stream on it. -/
  needed : ∀ c ∈ (run es).openClients, (run es).Needed c
  /-- No connection is closed under a call that uses it, or while it is stored: but for one that
  dies, an event closes exactly those that are not needed any more. -/
  dropped : ∀ e c, c < (run (es ++ [e])).clients → (run es).isClosed c = false → e ≠ .die c →
    ((run (es ++ [e])).isClosed c = true ↔ ¬ (run (es ++ [e])).Needed c)
  /-- There is at most one open connection more than calls that use one. -/
  bounded : (run es).openClients.length ≤ 1 + ((run es).tasks.filterMap Phase.inUse).length
  /-- When no call is under way, the stored client is the only one whose connection is open. -/
  idle : (∀ p ∈ (run es).tasks, p = .done) → ∀ c ∈ (run es).openClients, (run es).client = some c
  /-- After `close()`, no connection is open once no call uses one. -/
  closed : (run es).closed = true → (∀ p ∈ (run es).tasks, p.inUse = none) →
    (run es).openClients = []

theorem run_concat (es : List Event) (e : Event) : run (es ++ [e]) = ((run es).step e).2 :=
  Mealy.final_concat State.step new es e

/-- The clients that are needed, in a list. -/
theorem State.Needed.mem (h : s.Needed c) :
    c ∈ s.client.toList ++ s.tasks.filterMap Phase.inUse := by
  rcases h with hclient | ⟨p, hp, huse⟩
  · exact List.mem_append_left _ (Option.mem_toList.2 hclient)
  · exact List.mem_append_right _ (List.mem_filterMap.2 ⟨p, hp, huse⟩)

/-- **Every open connection is accounted for** in every run, whatever the calls, the order of the
events and the fate of the connects and connections. -/
theorem accounted (es : List Event) : Accounted es where
  needed c hc := needed_run es hc
  dropped e c hlt hopen hdie := by
    rw [run_concat] at hlt ⊢
    have hact := act_action (run es) e
    exact ((foundClosed_run es).action hact).isClosed_release_iff hlt
      (hact.isClosed_eq_false hopen hdie)
  bounded := by
    have hnodup : (run es).openClients.Nodup := List.nodup_range.filter _
    have hsubset : (run es).openClients ⊆
        (run es).client.toList ++ (run es).tasks.filterMap Phase.inUse :=
      fun c hc => (needed_run es hc).mem
    have hlen := (List.subperm_of_subset hnodup hsubset).length_le
    have hstored : (run es).client.toList.length ≤ 1 := by
      cases (run es).client <;> simp
    rw [List.length_append] at hlen
    omega
  idle hdone c hc := by
    rcases needed_run es hc with hclient | ⟨p, hp, huse⟩
    · exact hclient
    · rw [hdone p hp] at huse
      exact absurd huse (by simp [Phase.inUse])
  closed hclosed hnone := by
    refine List.eq_nil_iff_forall_not_mem.2 fun c hc => ?_
    rcases needed_run es hc with hclient | ⟨p, hp, huse⟩
    · exact absurd ((closedForGood_of_closed es hclosed).client.symm.trans hclient) (by simp)
    · exact absurd ((hnone p hp).symm.trans huse) (by simp)

end Rsteria.Reconnect
