import Rsteria.Connect.Interval

/-!
# The pace of port hopping

The hop task of `src/transport/socket.rs` with a clock. The task is spawned with the socket,
computes a wait when it is first polled, and sleeps; a poll at or after the deadline moves the hop
index and computes the next wait, an earlier one does nothing. The deadline is that of the timer of
the runtime, which may round it up, and which does not sleep for longer than it can (`Timer`). The
runtime may poll late and as often as it likes, so the times of the polls, by the clock of its
timer, are part of a run, as are the draws. A panic would end the task, and dropping the socket
aborts it.

A run with times is a run of the socket in which the hops stand where the task makes them
(`TimedSocket.final_socket`), so all that holds of a socket with hops at any time holds here. The
clock adds how fast the destination changes: `resolve_endpoint` sets a floor of five seconds, since
the server needs time to acknowledge a new path, and no destination is left sooner (`Paced.kept`).

## Main definitions

* `Connect.Timer` : the timer of the runtime.
* `Connect.HopTask`, `Connect.TimedSocket`, `Connect.TimedEvent`, `Connect.TimedSocket.step`.
* `Connect.Paced` : the properties of a run.

## Main results

* `Connect.hop_task_paced` : every run has them.
-/

namespace Rsteria.Connect

open Protocol Transport

/-- The timer of the runtime, in nanoseconds of its clock. -/
structure Timer where
  /-- `tokio::time::sleep`: when a sleep of a given length is over that begins at a given time. -/
  sleep : ℕ → ℕ → ℕ
  /-- The longest sleep that the timer supports. -/
  longest : ℕ
  /-- What a sleep is rounded up by at most. -/
  granularity : ℕ
  le_sleep : ∀ now wait, now + min wait longest ≤ sleep now wait
  sleep_le : ∀ now wait, sleep now wait ≤ now + (wait + granularity)

/-- A sleep takes at least this long. -/
def Timer.atLeast (timer : Timer) (wait : ℕ) : ℕ := min wait timer.longest

/-- A sleep takes at most this long. -/
def Timer.atMost (timer : Timer) (wait : ℕ) : ℕ := wait + timer.granularity

/-- Where the hop task stands. -/
inductive HopTask where
  /-- Ports are not hopped, or the task has panicked or was aborted. -/
  | none
  /-- The task was not polled yet. -/
  | spawned
  /-- The task sleeps until the deadline, in nanoseconds. -/
  | sleeping (deadline : ℕ)
  deriving DecidableEq, Repr

/-- The socket of an endpoint and the task that moves its hop index. -/
structure TimedSocket where
  socket : Option ObfsHopSocket
  task : HopTask

/-- What happens to the socket and the task. -/
inductive TimedEvent where
  /-- The runtime polls the task, with the numbers that are drawn for a wait and an index. -/
  | poll (wait index : ℕ)
  /-- A datagram is sent, with the salt that is drawn and the answer of the inner socket. -/
  | send (salt : Salt) (inner : Except IoError Unit) (t : Transmit)
  /-- Datagrams are received. -/
  | recv (c : RecvCall)
  /-- The socket is dropped; the program does not use it afterwards. -/
  | drop

/-- The task goes to sleep; a panic ends it. -/
def HopTask.sleep (timer : Timer) (min max : TimeSpan) (now r : ℕ) : HopTask :=
  match hopWait min max r with
  | some wait => .sleeping (timer.sleep now wait.nanos)
  | Option.none => .none

namespace TimedSocket

/-- `ObfsHopSocket::new` spawns the task if ports are hopped. -/
def new (canonical : SocketAddr) (obfs : Option Salamander) (hop : Option HopConfig) (r : ℕ) :
    TimedSocket :=
  let socket := ObfsHopSocket.new canonical obfs hop r
  ⟨socket, if (socket.bind ObfsHopSocket.hopIndex).isSome then .spawned else .none⟩

/-- The task after an event. -/
def nextTask (timer : Timer) (min max : TimeSpan) (s : TimedSocket) (now : ℕ) : TimedEvent → HopTask
  | .poll wait _ =>
    match s.task with
    | .none => .none
    | .spawned => .sleep timer min max now wait
    | .sleeping deadline => if now < deadline then s.task else .sleep timer min max now wait
  | .drop => .none
  | _ => s.task

/-- What an event does to the socket. -/
def socketEvent (s : TimedSocket) (now : ℕ) : TimedEvent → Option SocketEvent
  | .poll _ index =>
    match s.task with
    | .sleeping deadline => if now < deadline then none else some (.hop index)
    | _ => none
  | .send salt inner t => some (.send salt inner t)
  | .recv c => some (.recv c)
  | .drop => none

/-- One event, with its time in nanoseconds. -/
def step (blake2b256 : Bytes → Digest) (timer : Timer) (min max : TimeSpan) (s : TimedSocket)
    (x : ℕ × TimedEvent) : Option SocketOutput × TimedSocket :=
  match s.socketEvent x.1 x.2 with
  | some e =>
    let (output, socket) := socketStep blake2b256 s.socket e
    (output, ⟨socket, s.nextTask timer min max x.1 x.2⟩)
  | none => (none, ⟨s.socket, s.nextTask timer min max x.1 x.2⟩)

/-- The destination of the next datagram. -/
def dest (s : TimedSocket) : Option SocketAddr := s.socket.map ObfsHopSocket.currentDest

/-- The event moves the hop index. -/
def Hops (s : TimedSocket) (x : ℕ × TimedEvent) : Prop :=
  ∃ r, s.socketEvent x.1 x.2 = some (.hop r)

variable {blake2b256 : Bytes → Digest} {timer : Timer} {min max : TimeSpan} {s : TimedSocket}
  {x : ℕ × TimedEvent}

@[simp] theorem task_step :
    (s.step blake2b256 timer min max x).2.task = s.nextTask timer min max x.1 x.2 := by
  rw [step]
  split
  · rfl
  · rfl

theorem socket_step : (s.step blake2b256 timer min max x).2.socket =
    Mealy.final (socketStep blake2b256) s.socket (s.socketEvent x.1 x.2).toList := by
  rw [step]
  cases s.socketEvent x.1 x.2 with
  | none => rfl
  | some e => rfl

/-- The events at the socket in a run. -/
def socketEvents (blake2b256 : Bytes → Digest) (timer : Timer) (min max : TimeSpan)
    (s : TimedSocket) (es : List (ℕ × TimedEvent)) : List SocketEvent :=
  Mealy.collect (step blake2b256 timer min max) (fun s x => (s.socketEvent x.1 x.2).toList) s es

/-- A run with times is a run of the socket. -/
theorem final_socket (s : TimedSocket) (es : List (ℕ × TimedEvent)) :
    (Mealy.final (step blake2b256 timer min max) s es).socket =
      Mealy.final (socketStep blake2b256) s.socket
        (socketEvents blake2b256 timer min max s es) := by
  induction es generalizing s with
  | nil => rfl
  | cons x es ih =>
    have hcons : socketEvents blake2b256 timer min max s (x :: es) =
        (s.socketEvent x.1 x.2).toList ++
          socketEvents blake2b256 timer min max (s.step blake2b256 timer min max x).2 es := rfl
    rw [Mealy.final_cons, ih, hcons, Mealy.final_append, socket_step]

/-! ### One event -/

/-- A sleep ends between the bounds. -/
theorem exists_sleep (timer : Timer) (h : min ≤ max) (now r : ℕ) :
    ∃ deadline, now + timer.atLeast min.nanos ≤ deadline ∧
      deadline ≤ now + timer.atMost max.nanos ∧
      HopTask.sleep timer min max now r = .sleeping deadline := by
  obtain ⟨wait, hwait, hmin, hmax⟩ := hopWait_spec h r
  rw [TimeSpan.le_iff] at hmin hmax
  have hle := timer.le_sleep now wait.nanos
  have hge := timer.sleep_le now wait.nanos
  refine ⟨timer.sleep now wait.nanos, ?_, ?_, by rw [HopTask.sleep, hwait]⟩
  · rw [Timer.atLeast]
    omega
  · rw [Timer.atMost]
    omega

/-- An event leaves the task, or aborts it, or is a poll after which it sleeps again; the index is
moved only in the last case, when the deadline has passed. -/
theorem nextTask_cases (h : min ≤ max) (s : TimedSocket) (x : ℕ × TimedEvent) :
    s.nextTask timer min max x.1 x.2 = s.task ∧ ¬ s.Hops x ∨
      x.2 = .drop ∧ s.nextTask timer min max x.1 x.2 = .none ∧ ¬ s.Hops x ∨
      ∃ next, x.1 + timer.atLeast min.nanos ≤ next ∧ next ≤ x.1 + timer.atMost max.nanos ∧
        s.nextTask timer min max x.1 x.2 = .sleeping next ∧
        (s.task = .spawned ∧ ¬ s.Hops x ∨
          ∃ deadline, s.task = .sleeping deadline ∧ deadline ≤ x.1 ∧ s.Hops x) := by
  obtain ⟨now, e⟩ := x
  cases e with
  | drop => exact .inr (.inl ⟨rfl, rfl, by simp [Hops, socketEvent]⟩)
  | send salt inner t => exact .inl ⟨rfl, by simp [Hops, socketEvent]⟩
  | recv c => exact .inl ⟨rfl, by simp [Hops, socketEvent]⟩
  | poll r index =>
    obtain ⟨next, hmin, hmax, hsleep⟩ := exists_sleep timer h now r
    cases htask : s.task with
    | none => exact .inl ⟨by simp [nextTask, htask], by simp [Hops, socketEvent, htask]⟩
    | spawned =>
      refine .inr (.inr ⟨next, hmin, hmax, ?_, .inl ⟨rfl, by simp [Hops, socketEvent, htask]⟩⟩)
      simp only [nextTask, htask, hsleep]
    | sleeping deadline =>
      by_cases hlt : now < deadline
      · exact .inl ⟨by simp [nextTask, htask, hlt], by simp [Hops, socketEvent, htask, hlt]⟩
      · refine .inr (.inr ⟨next, hmin, hmax, ?_, .inr ⟨deadline, rfl, Nat.not_lt.1 hlt, ?_⟩⟩)
        · simp only [nextTask, htask, hlt, if_false, hsleep]
        · exact ⟨index, by simp only [socketEvent, htask, hlt, if_false]⟩

theorem currentDest_trySend (w : ObfsHopSocket) (salt : Salt) (inner : Except IoError Unit)
    (t : Transmit) : (w.trySend blake2b256 salt inner t).2.2.currentDest = w.currentDest := by
  simp only [ObfsHopSocket.trySend]
  split
  · rfl
  · split_ifs
    · rfl
    · rfl
    · rfl

/-- Only a hop changes the destination. -/
theorem dest_step (h : ¬ s.Hops x) : (s.step blake2b256 timer min max x).2.dest = s.dest := by
  rw [dest, socket_step]
  cases he : s.socketEvent x.1 x.2 with
  | none => rfl
  | some e =>
    cases e with
    | hop r => exact absurd ⟨r, he⟩ h
    | send salt inner t =>
      cases hs : s.socket with
      | none => rw [dest, hs]; rfl
      | some w =>
        rw [dest, hs]
        exact congrArg some (currentDest_trySend w salt inner t)
    | recv c =>
      cases hs : s.socket with
      | none => rw [dest, hs]; rfl
      | some w => rw [dest, hs]; rfl

/-- The deadlines from now on are not before `bound`. -/
def NotBefore (bound : ℕ) (s : TimedSocket) : Prop :=
  s.task ≠ .spawned ∧ ∀ deadline, s.task = .sleeping deadline → bound ≤ deadline

theorem NotBefore.step (h : min ≤ max) {bound : ℕ} (hs : NotBefore bound s) :
    NotBefore bound (s.step blake2b256 timer min max x).2 := by
  rw [NotBefore, task_step]
  rcases nextTask_cases h s x with ⟨hsame, -⟩ | ⟨-, hnone, -⟩ | ⟨next, hmin, -, hsleep, hbefore⟩
  · rw [hsame]
    exact hs
  · rw [hnone]
    exact ⟨by simp, by simp⟩
  · rw [hsleep]
    refine ⟨by simp, fun deadline hdeadline => ?_⟩
    rcases hbefore with ⟨hspawned, -⟩ | ⟨deadline', htask, hle, -⟩
    · exact absurd hspawned hs.1
    · have hbound := hs.2 deadline' htask
      have heq := HopTask.sleeping.inj hdeadline
      omega

/-- After a hop the next deadline is a wait away. -/
theorem Hops.notBefore (h : min ≤ max) (hhops : s.Hops x) :
    NotBefore (x.1 + timer.atLeast min.nanos) (s.step blake2b256 timer min max x).2 := by
  rw [NotBefore, task_step]
  rcases nextTask_cases h s x with ⟨-, hnot⟩ | ⟨-, -, hnot⟩ | ⟨next, hmin, -, hsleep, -⟩
  · exact absurd hhops hnot
  · exact absurd hhops hnot
  · rw [hsleep]
    refine ⟨by simp, fun deadline hdeadline => ?_⟩
    have heq := HopTask.sleeping.inj hdeadline
    omega

/-- A hop is not before the deadline. -/
theorem NotBefore.le_of_hops {bound : ℕ} (hs : NotBefore bound s) (hhops : s.Hops x) :
    bound ≤ x.1 := by
  obtain ⟨now, e⟩ := x
  obtain ⟨r, hr⟩ := hhops
  cases e with
  | drop => exact absurd hr (by simp [socketEvent])
  | send salt inner t => exact absurd hr (by simp [socketEvent])
  | recv c => exact absurd hr (by simp [socketEvent])
  | poll wait index =>
    cases htask : s.task with
    | none => exact absurd hr (by simp [socketEvent, htask])
    | spawned => exact absurd htask hs.1
    | sleeping deadline =>
      by_cases hlt : now < deadline
      · exact absurd hr (by simp [socketEvent, htask, hlt])
      · exact (hs.2 deadline htask).trans (Nat.not_lt.1 hlt)

/-! ### Runs -/

section Runs

variable (blake2b256 timer min max) (s : TimedSocket) (es : List (ℕ × TimedEvent))

/-- The state before the event at position `t`. -/
def stateAt (t : ℕ) : TimedSocket := Mealy.final (step blake2b256 timer min max) s (es.take t)

/-- The event at position `t`, at the time `n`, moves the hop index. -/
def HopsAt (t n : ℕ) : Prop :=
  ∃ e, es[t]? = some (n, e) ∧ (stateAt blake2b256 timer min max s es t).Hops (n, e)

/-- The event at position `t`, at the time `n`, hands a datagram for `addr` to the inner socket. -/
def SentAt (t n : ℕ) (addr : SocketAddr) : Prop :=
  ∃ salt inner transmit result handed, es[t]? = some (n, .send salt inner transmit) ∧
    ((stateAt blake2b256 timer min max s es t).step blake2b256 timer min max
      (n, .send salt inner transmit)).1 = some (.sent result handed) ∧
    ∃ d ∈ handed, d.destination = addr

/-- The event at position `t`, at the time `n`, polls the task. -/
def PolledAt (t n : ℕ) : Prop := ∃ r index, es[t]? = some (n, .poll r index)

/-- Times do not decrease. -/
def Chronological : Prop := (es.map Prod.fst).Pairwise (· ≤ ·)

variable {blake2b256 timer min max s es}

theorem Chronological.le (hes : Chronological es) {t t' n n' : ℕ} {e e' : TimedEvent}
    (he : es[t]? = some (n, e)) (he' : es[t']? = some (n', e')) (hle : t ≤ t') : n ≤ n' := by
  have hn : (es.map Prod.fst)[t]? = some n := by rw [List.getElem?_map, he]; rfl
  have hn' : (es.map Prod.fst)[t']? = some n' := by rw [List.getElem?_map, he']; rfl
  obtain ⟨hlt, rfl⟩ := List.getElem?_eq_some_iff.1 hn
  obtain ⟨hlt', rfl⟩ := List.getElem?_eq_some_iff.1 hn'
  rcases Nat.eq_or_lt_of_le hle with rfl | hlt''
  · exact Nat.le_refl _
  · exact List.pairwise_iff_getElem.1 hes t t' hlt hlt' hlt''

theorem stateAt_succ {t : ℕ} {x : ℕ × TimedEvent} (hx : es[t]? = some x) :
    stateAt blake2b256 timer min max s es (t + 1) =
      ((stateAt blake2b256 timer min max s es t).step blake2b256 timer min max x).2 :=
  Mealy.final_take_succ _ hx

/-- Two hops are at least the lower bound of the interval apart. -/
theorem HopsAt.spaced (h : min ≤ max) {t t' n n' : ℕ}
    (hhops : HopsAt blake2b256 timer min max s es t n)
    (hhops' : HopsAt blake2b256 timer min max s es t' n') (hlt : t < t') :
    n + timer.atLeast min.nanos ≤ n' := by
  obtain ⟨e, he, hhop⟩ := hhops
  obtain ⟨e', -, hhop'⟩ := hhops'
  have hafter : NotBefore (n + timer.atLeast min.nanos)
      (stateAt blake2b256 timer min max s es (t + 1)) := by
    rw [stateAt_succ he]
    exact hhop.notBefore h
  have hbefore : NotBefore (n + timer.atLeast min.nanos)
      (stateAt blake2b256 timer min max s es t') :=
    Mealy.final_take_of_le _ (fun _ _ hs => hs.step h) hlt hafter
  exact hbefore.le_of_hops hhop'

/-- Between two states with different destinations there is a hop. -/
theorem exists_hopsAt_of_dest_ne {t t' : ℕ} (hle : t ≤ t') (hlen : t' ≤ es.length)
    (hne : (stateAt blake2b256 timer min max s es t).dest ≠
      (stateAt blake2b256 timer min max s es t').dest) :
    ∃ u n, t ≤ u ∧ u < t' ∧ HopsAt blake2b256 timer min max s es u n := by
  induction hle with
  | refl => exact absurd rfl hne
  | @step t' hle ih =>
    by_cases hsame : (stateAt blake2b256 timer min max s es t).dest =
        (stateAt blake2b256 timer min max s es t').dest
    · obtain ⟨⟨n, e⟩, he⟩ : ∃ x, es[t']? = some x := ⟨_, List.getElem?_eq_getElem hlen⟩
      refine ⟨t', n, hle, Nat.lt_succ_self t', e, he, ?_⟩
      by_contra hnot
      rw [hsame, stateAt_succ he, dest_step hnot] at hne
      exact hne rfl
    · obtain ⟨u, n, hu, hut, hhops⟩ := ih (Nat.le_of_succ_le hlen) hsame
      exact ⟨u, n, hu, Nat.lt_succ_of_lt hut, hhops⟩

/-- The socket of a run is the one that the endpoint was built with, after some events. -/
theorem wraps_stateAt {canonical : SocketAddr} {obfs : Option Salamander} {hop : Option HopConfig}
    (hs : Wraps canonical obfs hop s.socket) (t : ℕ) :
    Wraps canonical obfs hop (stateAt blake2b256 timer min max s es t).socket := by
  rw [stateAt, final_socket]
  exact Mealy.final_induction _ hs fun _ e _ hw => hw.step blake2b256 e

theorem destination_trySend {w : ObfsHopSocket} {salt : Salt} {inner : Except IoError Unit}
    {t d : Transmit} (hd : d ∈ (w.trySend blake2b256 salt inner t).2.1) :
    d.destination = if w.hopIndex.isSome then w.currentDest else t.destination := by
  simp only [ObfsHopSocket.trySend] at hd
  split at hd
  · rw [List.mem_singleton.1 hd]
  · rename_i obfs hobfs
    by_cases hzero : (obfs.obfuscate blake2b256 salt t.contents w.writeBuf).1 = 0
    · rw [if_pos hzero] at hd
      exact absurd hd List.not_mem_nil
    · rw [if_neg hzero] at hd
      rw [List.mem_singleton.1 hd]

/-- When ports are hopped, a datagram goes to the destination of the state in which it is sent. -/
theorem SentAt.dest_eq {canonical : SocketAddr} {obfs : Option Salamander} {cfg : HopConfig}
    (hs : Wraps canonical obfs (some cfg) s.socket) {t n : ℕ} {addr : SocketAddr}
    (h : SentAt blake2b256 timer min max s es t n addr) :
    (stateAt blake2b256 timer min max s es t).dest = some addr := by
  obtain ⟨salt, inner, transmit, result, handed, -, hstep, d, hd, rfl⟩ := h
  have hwraps : Wraps canonical obfs (some cfg) (stateAt blake2b256 timer min max s es t).socket :=
    wraps_stateAt hs t
  cases hw : (stateAt blake2b256 timer min max s es t).socket with
  | none =>
    rw [hw] at hwraps
    exact absurd hwraps.2 (by simp)
  | some w =>
    rw [hw] at hwraps
    have hsome : w.hopIndex.isSome = true := Configured.isSome_hopIndex hwraps
    simp only [step, socketEvent, hw, socketStep, Option.some.injEq, SocketOutput.sent.injEq]
      at hstep
    rw [← hstep.2] at hd
    rw [dest, hw, destination_trySend hd, if_pos hsome]
    rfl

/-! ### The task keeps hopping -/

/-- Without a drop the task goes on. -/
theorem task_ne_none (h : min ≤ max) (hs : s.task ≠ .none) {t : ℕ} (hlen : t ≤ es.length)
    (hdrop : ∀ u < t, ∀ n, es[u]? ≠ some (n, .drop)) :
    (stateAt blake2b256 timer min max s es t).task ≠ .none := by
  induction t with
  | zero => exact hs
  | succ t ih =>
    have hbefore := ih (Nat.le_of_succ_le hlen) fun u hu => hdrop u (Nat.lt_succ_of_lt hu)
    obtain ⟨⟨n, e⟩, he⟩ : ∃ x, es[t]? = some x := ⟨_, List.getElem?_eq_getElem hlen⟩
    rw [stateAt_succ he, task_step]
    rcases nextTask_cases h (stateAt blake2b256 timer min max s es t) (n, e) with
      ⟨hsame, -⟩ | ⟨rfl, -, -⟩ | ⟨next, -, -, hsleep, -⟩
    · rw [hsame]
      exact hbefore
    · exact absurd he (hdrop t (Nat.lt_succ_self t) n)
    · rw [hsleep]
      simp

/-- A deadline is at most the upper bound of the interval after an earlier event. -/
theorem exists_deadline_le (h : min ≤ max) (hs : ∀ deadline, s.task ≠ .sleeping deadline) {t : ℕ}
    (hlen : t ≤ es.length) {deadline : ℕ}
    (htask : (stateAt blake2b256 timer min max s es t).task = .sleeping deadline) :
    ∃ u < t, ∃ n e, es[u]? = some (n, e) ∧ deadline ≤ n + timer.atMost max.nanos := by
  induction t with
  | zero => exact absurd htask (hs deadline)
  | succ t ih =>
    obtain ⟨⟨n, e⟩, he⟩ : ∃ x, es[t]? = some x := ⟨_, List.getElem?_eq_getElem hlen⟩
    rw [stateAt_succ he, task_step] at htask
    rcases nextTask_cases h (stateAt blake2b256 timer min max s es t) (n, e) with
      ⟨hsame, -⟩ | ⟨-, hnone, -⟩ | ⟨next, -, hmax, hsleep, -⟩
    · rw [hsame] at htask
      obtain ⟨u, hu, hfound⟩ := ih (Nat.le_of_succ_le hlen) htask
      exact ⟨u, Nat.lt_succ_of_lt hu, hfound⟩
    · exact absurd (hnone.symm.trans htask) (by simp)
    · have heq := HopTask.sleeping.inj (hsleep.symm.trans htask)
      exact ⟨t, Nat.lt_succ_self t, n, e, he, heq ▸ hmax⟩

/-- Without a hop or a drop the task sleeps on. -/
theorem task_eq_of_not_hops (h : min ≤ max) {t t' deadline : ℕ} (hle : t ≤ t')
    (hlen : t' ≤ es.length) (hdrop : ∀ u < t', ∀ n, es[u]? ≠ some (n, .drop))
    (hhops : ∀ u n, t ≤ u → u < t' → ¬ HopsAt blake2b256 timer min max s es u n)
    (htask : (stateAt blake2b256 timer min max s es t).task = .sleeping deadline) :
    (stateAt blake2b256 timer min max s es t').task = .sleeping deadline := by
  induction hle with
  | refl => exact htask
  | @step t' hle ih =>
    have hbefore := ih (Nat.le_of_succ_le hlen) (fun u hu => hdrop u (Nat.lt_succ_of_lt hu))
      fun u n hu hut => hhops u n hu (Nat.lt_succ_of_lt hut)
    obtain ⟨⟨n, e⟩, he⟩ : ∃ x, es[t']? = some x := ⟨_, List.getElem?_eq_getElem hlen⟩
    rw [stateAt_succ he, task_step]
    rcases nextTask_cases h (stateAt blake2b256 timer min max s es t') (n, e) with
      ⟨hsame, -⟩ | ⟨rfl, -, -⟩ | ⟨next, -, -, -, ⟨hspawned, -⟩ | ⟨-, -, -, hhop⟩⟩
    · rw [hsame, hbefore]
    · exact absurd he (hdrop t' (Nat.lt_succ_self t') n)
    · exact absurd (hbefore.symm.trans hspawned) (by simp)
    · exact absurd ⟨e, he, hhop⟩ (hhops t' n hle (Nat.lt_succ_self t'))

/-- A poll of a task that goes on moves the index, or leaves it asleep for at most the upper bound
of the interval. -/
theorem PolledAt.task_succ (h : min ≤ max) (hs : s.task = .spawned) (hes : Chronological es)
    {t n : ℕ} (hpoll : PolledAt es t n) (hdrop : ∀ u < t, ∀ m, es[u]? ≠ some (m, .drop)) :
    HopsAt blake2b256 timer min max s es t n ∨
      ∃ deadline ≤ n + timer.atMost max.nanos,
        (stateAt blake2b256 timer min max s es (t + 1)).task = .sleeping deadline := by
  obtain ⟨r, index, he⟩ := hpoll
  have hlen := (List.getElem?_eq_some_iff.1 he).1
  have halive : (stateAt blake2b256 timer min max s es t).task ≠ .none :=
    task_ne_none h (by simp [hs]) hlen.le hdrop
  rw [stateAt_succ he, task_step]
  cases htask : (stateAt blake2b256 timer min max s es t).task with
  | none => exact absurd htask halive
  | spawned =>
    obtain ⟨next, -, hmax, hsleep⟩ := exists_sleep timer h n r
    exact .inr ⟨next, hmax, by simp only [nextTask, htask, hsleep]⟩
  | sleeping deadline =>
    by_cases hlt : n < deadline
    · obtain ⟨u, hu, n', e', he', hle⟩ := exists_deadline_le h (by simp [hs]) hlen.le htask
      have htime := hes.le he' he hu.le
      exact .inr ⟨deadline, by omega, by simp only [nextTask, htask, hlt, if_true]⟩
    · exact .inl ⟨_, he, index, by simp only [socketEvent, htask, hlt, if_false]⟩

end Runs

end TimedSocket

/-! ### Every run -/

open TimedSocket

/-- The pace of the hops in a run, with the bounds `min` and `max` of the interval. -/
structure Paced (blake2b256 : Bytes → Digest) (timer : Timer) (min max : TimeSpan) (s : TimedSocket)
    (es : List (ℕ × TimedEvent)) : Prop where
  /-- Two hops are at least the lower bound apart. -/
  spaced : ∀ t t' n n', t < t' → HopsAt blake2b256 timer min max s es t n →
    HopsAt blake2b256 timer min max s es t' n' → n + timer.atLeast min.nanos ≤ n'
  /-- Datagrams whose destination changes twice are sent at least the lower bound apart. -/
  kept : ∀ t₁ t₂ t₃ n₁ n₂ n₃ a₁ a₂ a₃, t₁ ≤ t₂ → t₂ ≤ t₃ →
    SentAt blake2b256 timer min max s es t₁ n₁ a₁ →
    SentAt blake2b256 timer min max s es t₂ n₂ a₂ → SentAt blake2b256 timer min max s es t₃ n₃ a₃ →
    a₁ ≠ a₂ → a₂ ≠ a₃ → n₁ + timer.atLeast min.nanos ≤ n₃
  /-- As long as the socket is not dropped, there is a hop between two polls of the task that are
  the upper bound apart. -/
  moved : ∀ t t' n n', t < t' → PolledAt es t n → PolledAt es t' n' →
    (∀ u < t', ∀ m, es[u]? ≠ some (m, .drop)) → n + timer.atMost max.nanos ≤ n' →
    ∃ u m, t ≤ u ∧ u ≤ t' ∧ HopsAt blake2b256 timer min max s es u m

/-- The pace of the hops of a socket that was built to hop. -/
theorem paced_of_wraps {blake2b256 : Bytes → Digest} {timer : Timer} {min max : TimeSpan}
    {s : TimedSocket} {es : List (ℕ × TimedEvent)} {canonical : SocketAddr}
    {obfs : Option Salamander} {cfg : HopConfig} (h : min ≤ max)
    (hes : TimedSocket.Chronological es) (hwraps : Wraps canonical obfs (some cfg) s.socket)
    (hs : s.task = .spawned) : Paced blake2b256 timer min max s es where
  spaced t t' n n' hlt hhops hhops' := hhops.spaced h hhops' hlt
  kept t₁ t₂ t₃ n₁ n₂ n₃ a₁ a₂ a₃ hle hle' hsent₁ hsent₂ hsent₃ hne hne' := by
    have hdest₁ := hsent₁.dest_eq hwraps
    have hdest₂ := hsent₂.dest_eq hwraps
    have hdest₃ := hsent₃.dest_eq hwraps
    obtain ⟨_, _, _, _, _, he₁, -⟩ := hsent₁
    obtain ⟨_, _, _, _, _, he₂, -⟩ := hsent₂
    obtain ⟨_, _, _, _, _, he₃, -⟩ := hsent₃
    -- there is a hop between the first two datagrams and one between the last two
    obtain ⟨u, m, hu, hu', hhops⟩ := exists_hopsAt_of_dest_ne hle
      (List.getElem?_eq_some_iff.1 he₂).1.le (by rw [hdest₁, hdest₂]; simpa using hne)
    obtain ⟨u', m', hv, hv', hhops'⟩ := exists_hopsAt_of_dest_ne hle'
      (List.getElem?_eq_some_iff.1 he₃).1.le (by rw [hdest₂, hdest₃]; simpa using hne')
    have hspaced := hhops.spaced h hhops' (hu'.trans_le hv)
    obtain ⟨_, heu, -⟩ := hhops
    obtain ⟨_, hev, -⟩ := hhops'
    calc n₁ + timer.atLeast min.nanos ≤ m + timer.atLeast min.nanos :=
          Nat.add_le_add_right (hes.le he₁ heu hu) _
      _ ≤ m' := hspaced
      _ ≤ n₃ := hes.le hev he₃ hv'.le
  moved t t' n n' hlt hpoll hpoll' hdrop hle := by
    by_contra hnot
    push Not at hnot
    rcases hpoll.task_succ h hs hes fun u hu => hdrop u (hu.trans hlt) with
      hhops | ⟨deadline, hdeadline, htask⟩
    · exact hnot t n (Nat.le_refl t) hlt.le hhops
    · obtain ⟨r, index, he⟩ := hpoll'
      have htask' := task_eq_of_not_hops h hlt (List.getElem?_eq_some_iff.1 he).1.le hdrop
        (fun u m hu hut => hnot u m (Nat.le_of_succ_le hu) hut.le) htask
      have hdue : ¬ n' < deadline := by omega
      exact hnot t' n' hlt.le (Nat.le_refl t') ⟨_, he, index,
        by simp only [socketEvent, htask', hdue, if_false]⟩

variable {lookupHost : String → UInt16 → Except IoError (List SocketAddr)} {config : Config}
  {canonical : SocketAddr} {cfg : HopConfig} {minSecs maxSecs : UInt64}

/-- The ports that are hopped between are two or more. -/
theorem one_lt_length_addrs {ip : IpAddr} {ports : List UInt16}
    (h : hopConfig config ip ports = some cfg) : 1 < cfg.addrs.length := by
  rcases hopConfig_cases config ip ports with ⟨hnone, -⟩ | ⟨hlen, cfg', hcfg, haddrs⟩
  · exact absurd (hnone.symm.trans h) (by simp)
  · rw [← Option.some.inj (hcfg.symm.trans h), haddrs, List.length_map]
    exact hlen

/-- The task is spawned with a socket that hops. -/
theorem task_new (canonical : SocketAddr) (obfs : Option Salamander)
    (hlen : 1 < cfg.addrs.length) (r : ℕ) :
    (TimedSocket.new canonical obfs (some cfg) r).task = .spawned := by
  have hnot : ¬ (obfs.isNone = true ∧ (some cfg).isNone = true) := by simp
  have hlen' : cfg.addrs.length > 1 := hlen
  simp only [TimedSocket.new, ObfsHopSocket.new, if_neg hnot, dif_pos hlen', Option.bind_some,
    Option.isSome_some, if_true]

/-- **The hop task keeps its pace.** Whatever the settings, the draws, the polls of the task and the
traffic, hops are at least the lower bound of the interval apart, which is five seconds or more, or
else as far as the timer can sleep; so no destination is left sooner, and there is a hop between any
two polls that are the upper bound and the granularity of the timer apart. -/
theorem hop_task_paced (blake2b256 : Bytes → Digest) (timer : Timer) (obfs : Option Salamander)
    (r : ℕ)
    (h : resolveEndpoint lookupHost (withIntervals config minSecs maxSecs) =
      .ok (canonical, some cfg)) {es : List (ℕ × TimedEvent)}
    (hes : TimedSocket.Chronological es) :
    ∃ min max : TimeSpan, min.nanos = cfg.intervalMin * 10 ^ 6 ∧
      max.nanos = cfg.intervalMax * 10 ^ 6 ∧ Follows minSecs maxSecs min max ∧
      Paced blake2b256 timer min max (.new canonical obfs (some cfg) r) es := by
  obtain ⟨_, _, _, _, -, -, -, -, -, hhop⟩ := resolveEndpoint_spec h
  obtain ⟨min, max, hmin, hmax, hfollows⟩ := hopConfig_intervals hhop.symm
  have hlen := one_lt_length_addrs hhop.symm
  refine ⟨min, max, hmin, hmax, hfollows, ?_⟩
  refine paced_of_wraps hfollows.ordered hes (wraps_new canonical obfs (fun cfg' hcfg' => ?_) r)
    (task_new canonical obfs hlen r)
  rwa [← Option.some.inj hcfg']

/-- A timer that supports sleeps of two years, in steps of a millisecond. -/
def sampleTimer : Timer where
  sleep now wait := now + min wait (2 * 365 * 86400 * 10 ^ 9)
  longest := 2 * 365 * 86400 * 10 ^ 9
  granularity := 10 ^ 6
  le_sleep now wait := le_refl _
  sleep_le now wait := by omega

/-- A server with two ports, whose task is polled at once and half a minute later. -/
theorem hop_task_paced_two_polls :
    let lookupHost : String → UInt16 → Except IoError (List SocketAddr) :=
      fun _ port => .ok [⟨.v4 0x7f000001, port⟩]
    let config : Config := { serverAddr := "localhost:443", hopPorts := "2-1" }
    let hop : HopConfig := ⟨[⟨.v4 0x7f000001, 1⟩, ⟨.v4 0x7f000001, 2⟩], 30000, 30000⟩
    let es : List (ℕ × TimedEvent) := [(0, .poll 3 0), (30 * 10 ^ 9, .poll 5 1)]
    resolveEndpoint lookupHost (withIntervals config 0 0) =
        .ok (⟨.v4 0x7f000001, 1⟩, some hop) ∧ TimedSocket.Chronological es ∧
      ∃ min max : TimeSpan, min.nanos = hop.intervalMin * 10 ^ 6 ∧
        max.nanos = hop.intervalMax * 10 ^ 6 ∧ Follows 0 0 min max ∧
        Paced (fun bytes i => bytes.getD i 0) sampleTimer min max
          (.new ⟨.v4 0x7f000001, 1⟩ none (some hop) 0) es := by
  intro lookupHost config hop es
  have hresolve : resolveEndpoint lookupHost (withIntervals config 0 0) =
      .ok (⟨.v4 0x7f000001, 1⟩, some hop) := resolveEndpoint_two_ports
  have hes : TimedSocket.Chronological es := by
    simp [TimedSocket.Chronological, es]
  exact ⟨hresolve, hes, hop_task_paced _ sampleTimer none 0 hresolve hes⟩

end Rsteria.Connect
