import Rsteria.Error
import Rsteria.Lib.Mealy

/-!
# The reconnecting client

`ReconnectableClient` of `src/reconnect.rs`, shared by any number of calls that run concurrently.
A call is in one of the phases between its awaits; an event lets one call do what it does without
giving way: take the lock and run the critical section, get the answer of a connect or of a
`tcp_connect` on a client, or be cancelled. The lock is held across the connect in `current()` and
released between the critical sections of one call, so the events of different calls interleave
freely there.

Clients are numbered in the order in which they were connected. A client is referenced by the shared
state and by the calls that hold an `Arc` to it; when the last reference goes, `Drop` closes its
connection, and so the connection of every stream handed out on it.

`tcp_connect` that finds its client closed calls `invalidate()`, which removes whatever client is
stored by then. This is the only step of a `tcp_connect` or `udp` call that can remove an open
client, and it does exactly when another call has meanwhile replaced the closed one
(`preservesOpen_iff`).

## Main definitions

* `Reconnect.State`, `Reconnect.Phase`, `Reconnect.Event`, `Reconnect.step`.
* `Reconnect.Action` : what an event can do.
* `Reconnect.PreservesOpen` : an open client stays stored, and open.

## Main results

* `Reconnect.Consistent.step` : the invariant of every run.
* `Reconnect.preservesOpen_iff` : when no step removes an open client.
-/

namespace Rsteria.Reconnect

/-- Why a call runs `current()`: for the first attempt of `tcp_connect`, for the second one after
the client `old` was found closed, or for `udp`. -/
inductive Caller where
  | tcpConnect
  | retry (old : ℕ)
  | udp
  deriving DecidableEq, Repr

/-- Where a call stands, and the clients it holds. -/
inductive Phase where
  /-- Before the critical section of `current()`. -/
  | current (caller : Caller)
  /-- In `current()`, with the lock held, connecting. -/
  | connecting (caller : Caller)
  /-- In the first `tcp_connect` on a client. -/
  | opening (client : ℕ)
  /-- `tcp_connect` before the critical section of `invalidate()`, its client being closed. -/
  | invalidating (client : ℕ)
  /-- In the second `tcp_connect`, on another client. -/
  | reopening (old client : ℕ)
  /-- `invalidate()`, `close()` or `connect_count()` before its critical section. -/
  | invalidate
  | close
  | connectCount
  /-- The call has returned, or was cancelled. -/
  | done
  deriving DecidableEq, Repr

/-- The calls of `ReconnectableClient`. -/
inductive Op where
  | tcpConnect
  | udp
  | invalidate
  | close
  | connectCount
  deriving DecidableEq, Repr

/-- The phase in which a call starts. -/
def Op.phase : Op → Phase
  | .tcpConnect => .current .tcpConnect
  | .udp => .current .udp
  | .invalidate => .invalidate
  | .close => .close
  | .connectCount => .connectCount

/-- The clients that a call holds an `Arc` to. -/
def Phase.holds : Phase → List ℕ
  | .current (.retry old) => [old]
  | .connecting (.retry old) => [old]
  | .opening c => [c]
  | .invalidating c => [c]
  | .reopening old c => [old, c]
  | _ => []

/-- Where a call goes on when `current()` has returned the client `c`. -/
def Caller.next (c : ℕ) : Caller → Phase
  | .tcpConnect => .opening c
  | .retry old => .reopening old c
  | .udp => .done

/-- The shared state, the lock, the connections and the calls. `client`, `count` and `closed` are
the fields of `State` in the source; the counter is a `u64` there, which the number of connects does
not exhaust. -/
structure State where
  client : Option ℕ
  count : ℕ
  closed : Bool
  /-- The call that holds the lock across an await. -/
  holder : Option ℕ
  /-- The number of clients connected so far. -/
  clients : ℕ
  /-- The clients whose connection is closed. -/
  closedConns : List ℕ
  tasks : List Phase
  deriving DecidableEq, Repr

/-- `ReconnectableClient::new`. -/
def new : State where
  client := none
  count := 0
  closed := false
  holder := none
  clients := 0
  closedConns := []
  tasks := []

/-- What can happen. -/
inductive Event where
  /-- A call is made. -/
  | call (op : Op)
  /-- A call takes the lock and runs its critical section, up to the connect if there is one. -/
  | acquire (i : ℕ)
  /-- The connect of a call succeeds. -/
  | connected (i : ℕ)
  /-- The connect of a call fails. -/
  | connectFailed (i : ℕ) (e : Error)
  /-- `tcp_connect` on a client succeeds. -/
  | opened (i : ℕ)
  /-- `tcp_connect` on a client fails. -/
  | openFailed (i : ℕ)
  /-- The future of a call is dropped. -/
  | cancel (i : ℕ)
  /-- A connection dies. -/
  | die (c : ℕ)
  deriving DecidableEq

namespace State

/-- `close_reason().is_some()` on the connection of a client. -/
def isClosed (s : State) (c : ℕ) : Bool := s.closedConns.contains c

/-- The client is stored in the shared state or held by a call. -/
def referenced (s : State) (c : ℕ) : Bool :=
  s.client == some c || s.tasks.any fun p => p.holds.contains c

/-- `Drop for HysteriaClient`: the connection of a client without references is closed. -/
def release (s : State) : State :=
  { s with
    closedConns := s.closedConns ++ (List.range s.clients).filter fun c => !s.referenced c }

/-- The state with a call in another phase. -/
def setPhase (s : State) (i : ℕ) (p : Phase) : State := { s with tasks := s.tasks.set i p }

/-- Start a connect, with the lock held. -/
def startConnect (s : State) (i : ℕ) (caller : Caller) : State :=
  { s.setPhase i (.connecting caller) with holder := some i }

/-- The critical section of `current()`, up to the connect. -/
def current (s : State) (i : ℕ) (caller : Caller) : Option (Except Error ℕ) × State :=
  if s.closed then (some (.error (.protocol "client permanently closed")), s.setPhase i .done)
  else
    match s.client with
    | some c =>
      if s.isClosed c then (none, s.startConnect i caller)
      else (some (.ok c), s.setPhase i (caller.next c))
    | none => (none, s.startConnect i caller)

/-- The critical section that a call waits for. -/
def criticalSection (s : State) (i : ℕ) : Phase → Option (Except Error ℕ) × State
  | .current caller => s.current i caller
  | .invalidating c => (none, { s.setPhase i (.current (.retry c)) with client := none })
  | .invalidate => (none, { s.setPhase i .done with client := none })
  | .close => (none, { s.setPhase i .done with closed := true, client := none })
  | .connectCount => (none, s.setPhase i .done)
  | _ => (none, s)

/-- One event, before clients without references are dropped: the answer of `current()`, if it
returns, and the next state. An event that cannot happen leaves the state as it is. -/
def act (s : State) : Event → Option (Except Error ℕ) × State
  | .call op => (none, { s with tasks := s.tasks ++ [op.phase] })
  | .acquire i =>
    if s.holder.isSome then (none, s)
    else
      match s.tasks[i]? with
      | some p => s.criticalSection i p
      | none => (none, s)
  | .connected i =>
    match s.tasks[i]? with
    | some (.connecting caller) =>
      let c := s.clients
      (some (.ok c), { s.setPhase i (caller.next c) with
        client := some c, count := s.count + 1, holder := none, clients := s.clients + 1 })
    | _ => (none, s)
  | .connectFailed i e =>
    match s.tasks[i]? with
    | some (.connecting _) => (some (.error e), { s.setPhase i .done with holder := none })
    | _ => (none, s)
  | .opened i =>
    match s.tasks[i]? with
    | some (.opening _) => (none, s.setPhase i .done)
    | some (.reopening _ _) => (none, s.setPhase i .done)
    | _ => (none, s)
  | .openFailed i =>
    match s.tasks[i]? with
    | some (.opening c) => (none, s.setPhase i (if s.isClosed c then .invalidating c else .done))
    | some (.reopening _ _) => (none, s.setPhase i .done)
    | _ => (none, s)
  | .cancel i =>
    (none, { s.setPhase i .done with holder := if s.holder = some i then none else s.holder })
  | .die c =>
    if c < s.clients then (none, { s with closedConns := c :: s.closedConns }) else (none, s)

/-- One event. -/
def step (s : State) (e : Event) : Option (Except Error ℕ) × State :=
  let (answer, s) := s.act e
  (answer, s.release)

end State

/-- The state after a sequence of events. -/
def run (es : List Event) : State := Mealy.final State.step new es

/-! ### What an event can do -/

/-- What an event does, with the answer of `current()` if it returns. -/
inductive Action (s : State) : Event → Option (Except Error ℕ) → State → Prop where
  /-- The event cannot happen. -/
  | idle (e : Event) : Action s e none s
  | call (op : Op) : Action s (.call op) none { s with tasks := s.tasks ++ [op.phase] }
  /-- `current()` after `close()`. -/
  | refuse {i : ℕ} {caller : Caller} (hfree : s.holder = none)
    (htask : s.tasks[i]? = some (.current caller)) (hclosed : s.closed = true) :
    Action s (.acquire i) (some (.error (.protocol "client permanently closed")))
      (s.setPhase i .done)
  /-- `current()` without an open client. -/
  | connect {i : ℕ} {caller : Caller} (hfree : s.holder = none)
    (htask : s.tasks[i]? = some (.current caller)) (hclosed : s.closed = false)
    (hstale : ∀ c, s.client = some c → s.isClosed c = true) :
    Action s (.acquire i) none (s.startConnect i caller)
  /-- `current()` with an open client. -/
  | reuse {i c : ℕ} {caller : Caller} (hfree : s.holder = none)
    (htask : s.tasks[i]? = some (.current caller)) (hclosed : s.closed = false)
    (hclient : s.client = some c) (hopen : s.isClosed c = false) :
    Action s (.acquire i) (some (.ok c)) (s.setPhase i (caller.next c))
  /-- `invalidate()` in the retry of `tcp_connect`. -/
  | retryInvalidate {i c : ℕ} (hfree : s.holder = none)
    (htask : s.tasks[i]? = some (.invalidating c)) :
    Action s (.acquire i) none { s.setPhase i (.current (.retry c)) with client := none }
  | invalidate {i : ℕ} (hfree : s.holder = none) (htask : s.tasks[i]? = some .invalidate) :
    Action s (.acquire i) none { s.setPhase i .done with client := none }
  | close {i : ℕ} (hfree : s.holder = none) (htask : s.tasks[i]? = some .close) :
    Action s (.acquire i) none { s.setPhase i .done with closed := true, client := none }
  | connectCount {i : ℕ} (hfree : s.holder = none) (htask : s.tasks[i]? = some .connectCount) :
    Action s (.acquire i) none (s.setPhase i .done)
  | connected {i : ℕ} {caller : Caller} (htask : s.tasks[i]? = some (.connecting caller)) :
    Action s (.connected i) (some (.ok s.clients)) { s.setPhase i (caller.next s.clients) with
      client := some s.clients, count := s.count + 1, holder := none, clients := s.clients + 1 }
  | connectFailed {i : ℕ} {caller : Caller} (e : Error)
    (htask : s.tasks[i]? = some (.connecting caller)) :
    Action s (.connectFailed i e) (some (.error e)) { s.setPhase i .done with holder := none }
  | opened {i : ℕ} {p : Phase} (htask : s.tasks[i]? = some p)
    (hp : ∀ caller, p ≠ .connecting caller) : Action s (.opened i) none (s.setPhase i .done)
  /-- `tcp_connect` fails for good. -/
  | openFailed {i : ℕ} {p : Phase} (htask : s.tasks[i]? = some p)
    (hp : ∀ caller, p ≠ .connecting caller) : Action s (.openFailed i) none (s.setPhase i .done)
  /-- `tcp_connect` fails on a closed client. -/
  | retry {i c : ℕ} (htask : s.tasks[i]? = some (.opening c)) (hclosed : s.isClosed c = true) :
    Action s (.openFailed i) none (s.setPhase i (.invalidating c))
  | cancel (i : ℕ) :
    Action s (.cancel i) none { s.setPhase i .done with
      holder := if s.holder = some i then none else s.holder }
  | die {c : ℕ} (hc : c < s.clients) :
    Action s (.die c) none { s with closedConns := c :: s.closedConns }

variable {s s' : State} {e : Event} {answer : Option (Except Error ℕ)}

private theorem current_action {i : ℕ} {caller : Caller} (hfree : s.holder = none)
    (htask : s.tasks[i]? = some (.current caller)) :
    Action s (.acquire i) (s.current i caller).1 (s.current i caller).2 := by
  rw [State.current]
  split_ifs with hclosed
  · exact .refuse hfree htask hclosed
  · have hclosed : s.closed = false := by simpa using hclosed
    split
    · rename_i c hclient
      split_ifs with hdead
      · refine .connect hfree htask hclosed fun c' hc' => ?_
        rwa [← Option.some.inj (hclient.symm.trans hc')]
      · exact .reuse hfree htask hclosed hclient (by simpa using hdead)
    · rename_i hnone
      exact .connect hfree htask hclosed fun c' hc' => absurd (hnone.symm.trans hc') (by simp)

/-- An event does one of the actions. -/
theorem act_action (s : State) (e : Event) : Action s e (s.act e).1 (s.act e).2 := by
  cases e with
  | call op => exact .call op
  | acquire i =>
    simp only [State.act]
    split_ifs with hholder
    · exact .idle _
    · have hfree : s.holder = none := by simpa using hholder
      split
      · rename_i p htask
        cases p with
        | current caller => exact current_action hfree htask
        | invalidating c => exact .retryInvalidate hfree htask
        | invalidate => exact .invalidate hfree htask
        | close => exact .close hfree htask
        | connectCount => exact .connectCount hfree htask
        | connecting caller => exact .idle _
        | opening c => exact .idle _
        | reopening old c => exact .idle _
        | done => exact .idle _
      · exact .idle _
  | connected i =>
    simp only [State.act]
    split
    · rename_i htask
      exact .connected htask
    · exact .idle _
  | connectFailed i err =>
    simp only [State.act]
    split
    · rename_i htask
      exact .connectFailed err htask
    · exact .idle _
  | opened i =>
    simp only [State.act]
    split
    · rename_i htask
      exact .opened htask (by simp)
    · rename_i htask
      exact .opened htask (by simp)
    · exact .idle _
  | openFailed i =>
    simp only [State.act]
    split
    · rename_i c htask
      split_ifs with hclosed
      · exact .retry htask hclosed
      · exact .openFailed htask (by simp)
    · rename_i htask
      exact .openFailed htask (by simp)
    · exact .idle _
  | cancel i => exact .cancel i
  | die c =>
    simp only [State.act]
    split_ifs with hc
    · exact .die hc
    · exact .idle _

/-! ### The invariant of a run -/

/-- Only the holder of the lock connects; while it does, the stored client, if any, is closed; and a
call that is about to invalidate has found a closed client. -/
structure Consistent (s : State) : Prop where
  locked : ∀ (i : ℕ) (caller : Caller), s.tasks[i]? = some (.connecting caller) → s.holder = some i
  stale : ∀ i : ℕ, s.holder = some i → ∀ c, s.client = some c → s.isClosed c = true
  observed : ∀ i c : ℕ, s.tasks[i]? = some (.invalidating c) → s.isClosed c = true

theorem consistent_new : Consistent new where
  locked i caller h := by simp [new] at h
  stale i h := by simp [new] at h
  observed i c h := by simp [new] at h

theorem Phase.next_ne_connecting (caller : Caller) (c : ℕ) (caller' : Caller) :
    caller.next c ≠ .connecting caller' := by
  cases caller <;> simp [Caller.next]

theorem Phase.next_ne_invalidating (caller : Caller) (c c' : ℕ) :
    caller.next c ≠ .invalidating c' := by
  cases caller <;> simp [Caller.next]

theorem isClosed_iff {c : ℕ} : s.isClosed c = true ↔ c ∈ s.closedConns := List.contains_iff_mem

theorem isClosed_release {c : ℕ} (h : s.isClosed c = true) : s.release.isClosed c = true :=
  isClosed_iff.2 (List.mem_append_left _ (isClosed_iff.1 h))

/-- Dropping clients without references only closes connections. -/
theorem Consistent.release (hs : Consistent s) : Consistent s.release where
  locked := hs.locked
  stale i hi c hc := isClosed_release (hs.stale i hi c hc)
  observed i c hi := isClosed_release (hs.observed i c hi)

/-- The call that moves is in its new phase, every other one where it was. -/
theorem getElem?_set_cases {tasks : List Phase} {i j : ℕ} {p q : Phase}
    (h : (tasks.set i p)[j]? = some q) : j = i ∧ q = p ∨ j ≠ i ∧ tasks[j]? = some q := by
  rw [List.getElem?_set] at h
  split_ifs at h with hij hlt
  · exact .inl ⟨hij.symm, (Option.some.inj h).symm⟩
  · exact .inr ⟨fun hji => hij hji.symm, h⟩

/-- One call moves on without starting a connect. -/
theorem Consistent.move {i : ℕ} {p : Phase} (hs : Consistent s)
    (htasks : s'.tasks = s.tasks.set i p) (hconns : s'.closedConns = s.closedConns)
    (hp : ∀ caller, p ≠ .connecting caller)
    (hp' : ∀ c, p = .invalidating c → s.isClosed c = true)
    (hlock : ∀ j, j ≠ i → s.holder = some j → s'.holder = some j)
    (hstale : ∀ j, s'.holder = some j → s.holder = some j ∧ s'.client = s.client) :
    Consistent s' where
  locked j caller hj := by
    rw [htasks] at hj
    rcases getElem?_set_cases hj with ⟨-, hq⟩ | ⟨hne, hold⟩
    · exact absurd hq.symm (hp caller)
    · exact hlock j hne (hs.locked j caller hold)
  stale j hj c hc := by
    obtain ⟨hj', hclient⟩ := hstale j hj
    rw [State.isClosed, hconns]
    exact hs.stale j hj' c (hclient.symm.trans hc)
  observed j c hj := by
    rw [State.isClosed, hconns]
    rw [htasks] at hj
    rcases getElem?_set_cases hj with ⟨-, hq⟩ | ⟨-, hold⟩
    · exact hp' c hq.symm
    · exact hs.observed j c hold

/-- A critical section that does not connect. -/
theorem Consistent.moveFree {i : ℕ} {p : Phase} (hs : Consistent s) (hfree : s.holder = none)
    (hfree' : s'.holder = none) (htasks : s'.tasks = s.tasks.set i p)
    (hconns : s'.closedConns = s.closedConns) (hp : ∀ caller, p ≠ .connecting caller)
    (hp' : ∀ c, p ≠ .invalidating c) : Consistent s' :=
  hs.move htasks hconns hp (fun c hc => absurd hc (hp' c))
    (fun j _ hj => absurd (hfree.symm.trans hj) (by simp))
    (fun j hj => absurd (hfree'.symm.trans hj) (by simp))

/-- The end of a connect. -/
theorem Consistent.moveConnected {i : ℕ} {p : Phase} {caller : Caller} (hs : Consistent s)
    (htask : s.tasks[i]? = some (.connecting caller)) (hfree' : s'.holder = none)
    (htasks : s'.tasks = s.tasks.set i p) (hconns : s'.closedConns = s.closedConns)
    (hp : ∀ caller, p ≠ .connecting caller) (hp' : ∀ c, p ≠ .invalidating c) : Consistent s' := by
  refine hs.move htasks hconns hp (fun c hc => absurd hc (hp' c)) (fun j hne hj => ?_)
    (fun j hj => absurd (hfree'.symm.trans hj) (by simp))
  exact absurd (Option.some.inj (hj.symm.trans (hs.locked i caller htask))) hne

theorem Consistent.startConnect (hs : Consistent s) (hfree : s.holder = none) {i : ℕ}
    {caller : Caller} (hstale : ∀ c, s.client = some c → s.isClosed c = true) :
    Consistent (s.startConnect i caller) where
  locked j caller' hj := by
    rcases getElem?_set_cases hj with ⟨rfl, -⟩ | ⟨-, hold⟩
    · rfl
    · exact absurd (hfree.symm.trans (hs.locked j caller' hold)) (by simp)
  stale _ _ c hc := hstale c hc
  observed j c hj := by
    rcases getElem?_set_cases hj with ⟨-, hq⟩ | ⟨-, hold⟩
    · exact absurd hq (by simp)
    · exact hs.observed j c hold

/-- The new call is in its first phase, every other one where it was. -/
theorem getElem?_call_cases {tasks : List Phase} {p q : Phase} {j : ℕ}
    (h : (tasks ++ [p])[j]? = some q) : tasks[j]? = some q ∨ tasks[j]? = none ∧ q = p := by
  rcases Nat.lt_or_ge j tasks.length with hlt | hge
  · exact .inl (by rwa [List.getElem?_append_left hlt] at h)
  · rw [List.getElem?_append_right hge] at h
    exact .inr ⟨List.getElem?_eq_none hge, by simpa using List.mem_of_getElem? h⟩

theorem Consistent.call (hs : Consistent s) (op : Op) :
    Consistent { s with tasks := s.tasks ++ [op.phase] } := by
  refine ⟨fun j caller hj => ?_, hs.stale, fun j c hj => ?_⟩
  · rcases getElem?_call_cases hj with hold | ⟨-, hq⟩
    · exact hs.locked j caller hold
    · cases op <;> simp [Op.phase] at hq
  · rcases getElem?_call_cases hj with hold | ⟨-, hq⟩
    · exact hs.observed j c hold
    · cases op <;> simp [Op.phase] at hq

theorem Consistent.die (hs : Consistent s) (c : ℕ) :
    Consistent { s with closedConns := c :: s.closedConns } where
  locked := hs.locked
  stale i hi c' hc' :=
    isClosed_iff.2 (List.mem_cons_of_mem c (isClosed_iff.1 (hs.stale i hi c' hc')))
  observed i c' hi := isClosed_iff.2 (List.mem_cons_of_mem c (isClosed_iff.1 (hs.observed i c' hi)))

/-- Every action keeps the invariant. -/
theorem Consistent.action (hs : Consistent s) (h : Action s e answer s') : Consistent s' := by
  cases h with
  | idle e => exact hs
  | call op => exact hs.call op
  | refuse hfree htask hclosed => exact hs.moveFree hfree hfree rfl rfl (by simp) (by simp)
  | connect hfree htask hclosed hstale => exact hs.startConnect hfree hstale
  | reuse hfree htask hclosed hclient hopen =>
    exact hs.moveFree hfree hfree rfl rfl (Phase.next_ne_connecting _ _)
      (Phase.next_ne_invalidating _ _)
  | retryInvalidate hfree htask => exact hs.moveFree hfree hfree rfl rfl (by simp) (by simp)
  | invalidate hfree htask => exact hs.moveFree hfree hfree rfl rfl (by simp) (by simp)
  | close hfree htask => exact hs.moveFree hfree hfree rfl rfl (by simp) (by simp)
  | connectCount hfree htask => exact hs.moveFree hfree hfree rfl rfl (by simp) (by simp)
  | connected htask =>
    exact hs.moveConnected htask rfl rfl rfl (Phase.next_ne_connecting _ _)
      (Phase.next_ne_invalidating _ _)
  | connectFailed err htask => exact hs.moveConnected htask rfl rfl rfl (by simp) (by simp)
  | opened htask hp =>
    exact hs.move rfl rfl (by simp) (by simp) (fun _ _ hj => hj) (fun _ hj => ⟨hj, rfl⟩)
  | openFailed htask hp =>
    exact hs.move rfl rfl (by simp) (by simp) (fun _ _ hj => hj) (fun _ hj => ⟨hj, rfl⟩)
  | retry htask hclosed =>
    refine hs.move rfl rfl (by simp) (fun c hc => ?_) (fun _ _ hj => hj) (fun _ hj => ⟨hj, rfl⟩)
    simp only [Phase.invalidating.injEq] at hc
    rwa [← hc]
  | cancel i =>
    refine hs.move rfl rfl (by simp) (by simp) (fun j hne hj => ?_) (fun j hj => ?_)
    · simp only [hj, Option.some.injEq, hne, if_false]
    · simp only at hj
      split_ifs at hj with hi
      exact ⟨hj, rfl⟩
  | die hc => exact hs.die _

/-- The invariant holds after every event. -/
theorem Consistent.step (hs : Consistent s) (e : Event) : Consistent (s.step e).2 :=
  (hs.action (act_action s e)).release

theorem consistent_run (es : List Event) : Consistent (run es) :=
  Mealy.final_induction State.step consistent_new fun _ e _ hs => hs.step e

/-! ### When an open client is removed -/

/-- An explicit call of `invalidate()` or `close()` that waits for its critical section. -/
def Phase.explicit : Phase → Bool
  | .invalidate => true
  | .close => true
  | _ => false

/-- No explicit call of `invalidate()` or `close()` was made. -/
def Implicit (s : State) : Prop := ∀ p ∈ s.tasks, p.explicit = false

/-- An open client stays stored, and stays open unless its connection dies by itself. -/
def PreservesOpen (s : State) (e : Event) : Prop :=
  ∀ c, s.client = some c → s.isClosed c = false →
    (s.step e).2.client = some c ∧ (e ≠ .die c → (s.step e).2.isClosed c = false)

/-- When a retry of `tcp_connect` invalidates, the stored client is the one that it found closed, or
another one that is closed as well. -/
def RetrySafe (s : State) (e : Event) : Prop :=
  ∀ i d : ℕ, e = .acquire i → s.holder = none → s.tasks[i]? = some (.invalidating d) →
    ∀ c, s.client = some c → c = d ∨ s.isClosed c = true

theorem Implicit.setPhase (hs : Implicit s) (i : ℕ) {p : Phase} (hp : p.explicit = false) :
    ∀ q ∈ s.tasks.set i p, q.explicit = false := by
  intro q hq
  rcases List.mem_or_eq_of_mem_set hq with hold | rfl
  · exact hs q hold
  · exact hp

theorem Phase.explicit_next (caller : Caller) (c : ℕ) : (caller.next c).explicit = false := by
  cases caller <;> rfl

/-- Without explicit calls there are none under way. -/
theorem Implicit.action (hs : Implicit s) (h : Action s e answer s')
    (hinvalidate : e ≠ .call .invalidate) (hclose : e ≠ .call .close) : Implicit s' := by
  cases h with
  | idle e => exact hs
  | call op =>
    intro p hp
    rcases List.mem_append.1 hp with hold | hnew
    · exact hs p hold
    · rw [List.mem_singleton.1 hnew]
      cases op with
      | invalidate => exact absurd rfl hinvalidate
      | close => exact absurd rfl hclose
      | _ => rfl
  | reuse => exact hs.setPhase _ (Phase.explicit_next _ _)
  | connected => exact hs.setPhase _ (Phase.explicit_next _ _)
  | die => exact hs
  | _ => exact hs.setPhase _ rfl

/-- The actions that leave the stored client. -/
theorem Action.client_eq (hs : Consistent s) (h : Action s e answer s') (himp : Implicit s)
    (hsafe : RetrySafe s e) {c : ℕ} (hclient : s.client = some c) (hopen : s.isClosed c = false) :
    s'.client = some c := by
  cases h with
  | retryInvalidate hfree htask =>
    rcases hsafe _ _ rfl hfree htask c hclient with rfl | hclosed
    · exact absurd (hs.observed _ _ htask) (by simp [hopen])
    · exact absurd hclosed (by simp [hopen])
  | invalidate hfree htask =>
    exact absurd (himp _ (List.mem_of_getElem? htask)) (by simp [Phase.explicit])
  | close hfree htask =>
    exact absurd (himp _ (List.mem_of_getElem? htask)) (by simp [Phase.explicit])
  | connected htask =>
    exact absurd (hs.stale _ (hs.locked _ _ htask) c hclient) (by simp [hopen])
  | _ => exact hclient

theorem Action.isClosed_eq_false (h : Action s e answer s') {c : ℕ} (hopen : s.isClosed c = false)
    (hdie : e ≠ .die c) : s'.isClosed c = false := by
  cases h with
  | die hc =>
    simp only [State.isClosed, List.contains_cons, Bool.or_eq_false_iff, beq_eq_false_iff_ne]
    exact ⟨fun heq => hdie (by rw [heq]), hopen⟩
  | _ => exact hopen

/-- A stored client is not dropped. -/
theorem isClosed_release_of_stored {c : ℕ} (hclient : s.client = some c)
    (hopen : s.isClosed c = false) : s.release.isClosed c = false := by
  rw [← Bool.not_eq_true, isClosed_iff]
  intro hmem
  rcases List.mem_append.1 hmem with hold | hdropped
  · exact absurd (isClosed_iff.2 hold) (by simp [hopen])
  · have hnot := (List.mem_filter.1 hdropped).2
    simp [State.referenced, hclient] at hnot

/-- One event preserves an open client exactly when it is not a retry that finds another one. -/
theorem preservesOpen_step_iff (hs : Consistent s) (himp : Implicit s) (e : Event) :
    PreservesOpen s e ↔ RetrySafe s e := by
  constructor
  · rintro hpres i d rfl hfree htask c hclient
    by_contra hcon
    rw [not_or] at hcon
    have hkept := (hpres c hclient (by simpa using hcon.2)).1
    simp [State.step, State.act, hfree, htask, State.criticalSection, State.release] at hkept
  · intro hsafe c hclient hopen
    have hact := act_action s e
    have hclient' := hact.client_eq hs himp hsafe hclient hopen
    exact ⟨hclient', fun hdie =>
      isClosed_release_of_stored hclient' (hact.isClosed_eq_false hopen hdie)⟩

/-- **When no call removes an open client.** In a run without explicit calls of `invalidate()` and
`close()`, every step leaves an open client stored and open, if and only if every retry of
`tcp_connect` that invalidates finds in the shared state no client, the client that it found closed,
or another closed one. -/
theorem preservesOpen_iff (es : List Event) (hinvalidate : Event.call .invalidate ∉ es)
    (hclose : Event.call .close ∉ es) :
    (∀ t e, es[t]? = some e → PreservesOpen (run (es.take t)) e) ↔
      ∀ t e, es[t]? = some e → RetrySafe (run (es.take t)) e := by
  have himp (t : ℕ) : Implicit (run (es.take t)) := by
    refine Mealy.final_induction State.step (P := Implicit) (fun p hp => absurd hp (by simp [new]))
      fun s e he hs => ?_
    have he := List.mem_of_mem_take he
    have hnext : Implicit (s.act e).2 := hs.action (act_action s e)
      (fun h => hinvalidate (h ▸ he)) (fun h => hclose (h ▸ he))
    exact hnext
  exact forall₃_congr fun t e _ => preservesOpen_step_iff (consistent_run _) (himp t) e

/-- One call of `tcp_connect` that reconnects after its client died. -/
theorem preservesOpen_iff_single_retry :
    let es : List Event := [.call .tcpConnect, .acquire 0, .connected 0, .die 0, .openFailed 0,
      .acquire 0, .acquire 0, .connected 0, .opened 0]
    (∀ t e, es[t]? = some e → PreservesOpen (run (es.take t)) e) ↔
      ∀ t e, es[t]? = some e → RetrySafe (run (es.take t)) e :=
  preservesOpen_iff _ (by decide) (by decide)

/-- Two calls of `tcp_connect` share a client that dies. The first reconnects and returns a stream
on the new client; the retry of the second then removes the new client, and its connection is
closed. -/
theorem retry_closes_open_client :
    ¬ (∀ es : List Event, Event.call .invalidate ∉ es → Event.call .close ∉ es →
        ∀ t e, es[t]? = some e → PreservesOpen (run (es.take t)) e) ∧
      (let es : List Event := [.call .tcpConnect, .call .tcpConnect, .acquire 0, .connected 0,
        .acquire 1, .die 0, .openFailed 0, .openFailed 1, .acquire 0, .acquire 0, .connected 0,
        .opened 0]
      (run es).client = some 1 ∧ (run es).isClosed 1 = false ∧
        (run (es ++ [.acquire 1])).client = none ∧
        (run (es ++ [.acquire 1])).isClosed 1 = true) := by
  refine ⟨fun h => ?_, by decide, by decide, by decide, by decide⟩
  have hpres := h [.call .tcpConnect, .call .tcpConnect, .acquire 0, .connected 0, .acquire 1,
    .die 0, .openFailed 0, .openFailed 1, .acquire 0, .acquire 0, .connected 0, .opened 0,
    .acquire 1] (by decide) (by decide) 12 _ rfl 1 (by decide) (by decide)
  exact absurd hpres.1 (by decide)

end Rsteria.Reconnect
