import Rsteria.Stream

/-!
# Resources of the header phase

A hostile server chooses the lengths in the response header, their encodings and the chunks in which
its bytes arrive. What a `DuplexStream` holds is bounded all the same: the parser asks for more only
while `scratch` is short (`Protocol.length_le_of_needMore`), a read adds at least one byte and at
most 512 of them, and the data behind the header arrives in the read that completes it.

The account of a stream is the list of chunks that its polls have read in the header phase, over all
calls since it was opened (`DuplexStream.headerChunks`). While the header is open the chunks make up
`scratch`, and in front of the last of them the parser asked for more (`HeaderReads`); from this all
bounds follow.

The model hands a poll the list of the transport's answers and treats the transport as pending after
the last of them. That the loop ends is therefore stated for a transport that has an answer to every
poll: the loop takes no more than a bounded number of them and leaves the rest.

## Main definitions

* `Stream.DuplexStream.headerChunks` : the chunks that a poll reads in the header phase.
* `Stream.DuplexStream.Turn` : what one turn of the loop can do.
* `Stream.Call`, `Stream.DuplexStream.serve` : the calls that poll the receive side of a stream.
* `Stream.HeaderReads`, `Stream.DuplexStream.Bounded` : the invariant.

## Main results

* `Stream.DuplexStream.turn`, `Stream.DuplexStream.pollEstablish_induction` : the turns of the loop.
* `Stream.DuplexStream.Bounded.serve` : the invariant is kept by a call.
* `Stream.DuplexStream.pollEstablish_append` : answers beyond a bounded number are not asked for.
-/

namespace Rsteria.Stream

open Protocol

/-! ### The chunks of the header phase -/

/-- What a read of the transport returns in the header phase: a chunk from the front of the stream,
or nothing that changes it. -/
theorem RecvStream.pollRead_chunk (r : RecvStream) (p : RecvPoll) :
    (∃ filled rest, filled ≠ [] ∧ filled.length ≤ 512 ∧ r.rest = filled ++ rest ∧
      r.pollRead 512 p = (.ready (.ok filled), ⟨rest⟩)) ∨
      r.pollRead 512 p = (.ready (.ok []), r) ∨ (∃ e, r.pollRead 512 p = (.ready (.error e), r)) ∨
        r.pollRead 512 p = (.pending, r) := by
  cases p with
  | pending => exact .inr (.inr (.inr rfl))
  | error e => exact .inr (.inr (.inl ⟨e, rfl⟩))
  | ready n =>
    by_cases hrest : r.rest = []
    · obtain ⟨rest⟩ := r
      subst hrest
      exact .inr (.inl (by simp [RecvStream.pollRead]))
    · refine .inl ⟨r.rest.take (min (max n 1) 512), r.rest.drop (min (max n 1) 512), ?_, ?_,
        (List.take_append_drop _ _).symm, rfl⟩
      · rw [ne_eq, List.take_eq_nil_iff]
        rintro (hzero | hnil)
        · omega
        · exact hrest hnil
      · exact (List.length_take_le _ _).trans (min_le_right _ _)

namespace DuplexStream

/-- The chunks that `pollEstablish` reads from the transport and appends to `scratch`. -/
def headerChunks (me : DuplexStream) (polls : List RecvPoll) : List Bytes :=
  if me.responseDone then []
  else
    match parseTcpResponse me.scratch with
    | .done _ _ => []
    | .invalid => []
    | .needMore =>
      match polls with
      | [] => []
      | p :: polls =>
        match me.recv.pollRead 512 p with
        | (.ready (.ok filled), recv) =>
          if filled.isEmpty then []
          else
            filled :: headerChunks { me with recv := recv, scratch := me.scratch ++ filled } polls
        | (.ready (.error _), _) => []
        | (.pending, _) => []
termination_by structural polls

/-- What the first turn of the loop can do, whatever further answers the transport has. -/
inductive Turn (s : DuplexStream) : List RecvPoll → Prop where
  /-- The header is incomplete, and there is no answer. -/
  | starve (hparse : parseTcpResponse s.scratch = .needMore)
      (hpoll : s.pollEstablish [] = (.pending, s, [])) (hchunks : s.headerChunks [] = []) :
      Turn s []
  /-- The loop stops and leaves the stream as it is. -/
  | stop {polls left : List RecvPoll} {result : Poll (Except IoError Unit)}
      (hresult : result = .ready (.ok ()) → s.responseDone = true) (hleft : left <:+ polls)
      (hpoll : ∀ more, s.pollEstablish (polls ++ more) = (result, s, left ++ more))
      (hchunks : s.headerChunks polls = []) : Turn s polls
  /-- The header is accepted. -/
  | accept {polls : List RecvPoll} {c : ℕ} (hopen : s.responseDone = false)
      (hparse : parseTcpResponse s.scratch = .done true c)
      (hpoll : ∀ more, s.pollEstablish (polls ++ more) = (.ready (.ok ()),
        { s with leftover := s.scratch.drop c, scratch := [], responseDone := true },
        polls ++ more))
      (hchunks : s.headerChunks polls = []) : Turn s polls
  /-- A chunk is read, and the loop goes on. -/
  | read {p : RecvPoll} {polls : List RecvPoll} {filled rest : Bytes}
      (hopen : s.responseDone = false) (hparse : parseTcpResponse s.scratch = .needMore)
      (hne : filled ≠ []) (hle : filled.length ≤ 512) (hrest : s.recv.rest = filled ++ rest)
      (hpoll : ∀ more, s.pollEstablish (p :: (polls ++ more)) = pollEstablish
        { s with recv := ⟨rest⟩, scratch := s.scratch ++ filled } (polls ++ more))
      (hchunks : s.headerChunks (p :: polls) = filled :: headerChunks
        { s with recv := ⟨rest⟩, scratch := s.scratch ++ filled } polls) : Turn s (p :: polls)

/-- A turn in which the header is incomplete and the transport answers. -/
theorem turn_cons {s : DuplexStream} (hopen : s.responseDone = false)
    (hparse : parseTcpResponse s.scratch = .needMore) (p : RecvPoll) (polls : List RecvPoll) :
    Turn s (p :: polls) := by
  have hdone : ¬ s.responseDone = true := Bool.eq_false_iff.1 hopen
  have hleft := List.suffix_cons p polls
  have hpoll (more : List RecvPoll) := pollEstablish.eq_def s (p :: (polls ++ more))
  have hchunks := headerChunks.eq_def s (p :: polls)
  simp only [if_neg hdone, hparse] at hpoll hchunks
  rcases s.recv.pollRead_chunk p with
    ⟨filled, rest, hne, hle, hrest, hread⟩ | hread | ⟨e, hread⟩ | hread
  · have hfilled : filled.isEmpty = false := List.isEmpty_eq_false_iff.2 hne
    simp only [hread, hfilled, Bool.false_eq_true, if_false] at hpoll hchunks
    exact .read hopen hparse hne hle hrest hpoll hchunks
  · simp only [hread, List.isEmpty_nil, if_true] at hpoll hchunks
    exact .stop (by simp) hleft hpoll hchunks
  · simp only [hread] at hpoll hchunks
    exact .stop (by simp) hleft hpoll hchunks
  · simp only [hread] at hpoll hchunks
    exact .stop (by simp) hleft hpoll hchunks

/-- **One turn of the loop.** -/
theorem turn (s : DuplexStream) (polls : List RecvPoll) : Turn s polls := by
  by_cases hdone : s.responseDone = true
  · exact .stop (fun _ => hdone) List.suffix_rfl
      (fun more => pollEstablish_of_responseDone hdone (polls ++ more))
      (by rw [headerChunks.eq_def, if_pos hdone])
  have hopen : s.responseDone = false := Bool.eq_false_iff.2 hdone
  have hpoll (more : List RecvPoll) := pollEstablish.eq_def s (polls ++ more)
  have hchunks := headerChunks.eq_def s polls
  simp only [if_neg hdone] at hpoll hchunks
  cases hparse : parseTcpResponse s.scratch with
  | invalid =>
    simp only [hparse] at hpoll hchunks
    exact .stop (by simp) List.suffix_rfl hpoll hchunks
  | done ok c =>
    simp only [hparse] at hpoll hchunks
    cases ok with
    | false => exact .stop (by simp) List.suffix_rfl hpoll hchunks
    | true => exact .accept hopen hparse hpoll hchunks
  | needMore =>
    cases polls with
    | nil =>
      simp only [hparse] at hchunks
      exact .starve hparse (pollEstablish_nil hopen hparse) hchunks
    | cons p polls => exact turn_cons hopen hparse p polls

/-- Once every length of `scratch` at which the parser asks for more has its answer, the loop asks
for no further one. -/
theorem pollEstablish_append {s : DuplexStream} {polls : List RecvPoll}
    (hpolls : 6160 < polls.length + s.scratch.length) (more : List RecvPoll) :
    s.pollEstablish (polls ++ more) = ((s.pollEstablish polls).1, (s.pollEstablish polls).2.1,
      (s.pollEstablish polls).2.2 ++ more) := by
  induction hn : polls.length using Nat.strongRecOn generalizing s polls with
  | ind n ih =>
  cases turn s polls with
  | starve hparse =>
    have hle := length_le_of_needMore hparse
    rw [List.length_nil] at hpolls
    omega
  | stop _ _ hpoll =>
    have hstop := hpoll []
    rw [List.append_nil, List.append_nil] at hstop
    rw [hpoll more, hstop]
  | accept _ _ hpoll =>
    have haccept := hpoll []
    rw [List.append_nil] at haccept
    rw [hpoll more, haccept]
  | @read p polls filled rest _ _ hne _ _ hpoll =>
    have hread := hpoll []
    rw [List.append_nil] at hread
    have hpos := List.length_pos_iff.2 hne
    rw [List.cons_append, hpoll more, hread]
    rw [List.length_cons] at hn hpolls
    refine ih polls.length (by omega) ?_ rfl
    rw [List.length_append]
    omega

/-- Induction over the turns of the loop: a relation between the stream and the answers before it,
its result, the stream and the answers after it, and the chunks that it reads. -/
theorem pollEstablish_induction
    {P : DuplexStream → List RecvPoll → Poll (Except IoError Unit) → DuplexStream →
      List RecvPoll → List Bytes → Prop}
    (stop : ∀ s polls result left, (result = .ready (.ok ()) → s.responseDone = true) →
      left <:+ polls → P s polls result s left [])
    (accept : ∀ s polls c, s.responseDone = false → parseTcpResponse s.scratch = .done true c →
      P s polls (.ready (.ok ()))
        { s with leftover := s.scratch.drop c, scratch := [], responseDone := true } polls [])
    (read : ∀ s p polls filled rest result s' left chunks, s.responseDone = false →
      parseTcpResponse s.scratch = .needMore → filled ≠ [] → filled.length ≤ 512 →
      s.recv.rest = filled ++ rest →
      P { s with recv := ⟨rest⟩, scratch := s.scratch ++ filled } polls result s' left chunks →
      P s (p :: polls) result s' left (filled :: chunks))
    (s : DuplexStream) (polls : List RecvPoll) :
    P s polls (s.pollEstablish polls).1 (s.pollEstablish polls).2.1 (s.pollEstablish polls).2.2
      (s.headerChunks polls) := by
  induction hn : polls.length using Nat.strongRecOn generalizing s polls with
  | ind n ih =>
  cases turn s polls with
  | starve _ hpoll hchunks =>
    rw [hpoll, hchunks]
    exact stop s [] .pending [] (by simp) List.suffix_rfl
  | stop hresult hleft hpoll hchunks =>
    have hstop := hpoll []
    rw [List.append_nil, List.append_nil] at hstop
    rw [hstop, hchunks]
    exact stop s polls _ _ hresult hleft
  | accept hopen hparse hpoll hchunks =>
    have haccept := hpoll []
    rw [List.append_nil] at haccept
    rw [haccept, hchunks]
    exact accept s polls _ hopen hparse
  | @read p polls filled rest hopen hparse hne hle hrest hpoll hchunks =>
    have hread := hpoll []
    rw [List.append_nil] at hread
    rw [hread, hchunks]
    refine read s p polls filled rest _ _ _ _ hopen hparse hne hle hrest ?_
    exact ih polls.length (by rw [← hn, List.length_cons]; omega) _ polls rfl

/-- The answers that are left over are the last ones. -/
theorem pollEstablish_suffix (s : DuplexStream) (polls : List RecvPoll) :
    (s.pollEstablish polls).2.2 <:+ polls := by
  refine pollEstablish_induction (P := fun _ polls _ _ left _ => left <:+ polls) ?_ ?_ ?_ s polls
  · exact fun s polls result left _ hleft => hleft
  · exact fun s polls c _ _ => List.suffix_rfl
  · exact fun s p polls _ _ _ _ _ _ _ _ _ _ _ ih => ih.trans (List.suffix_cons p polls)

/-- The loop ends without an error only when the header is complete. -/
theorem responseDone_of_pollEstablish (s : DuplexStream) (polls : List RecvPoll) :
    (s.pollEstablish polls).1 = .ready (.ok ()) →
      (s.pollEstablish polls).2.1.responseDone = true := by
  refine pollEstablish_induction (P := fun _ _ result s' _ _ =>
    result = .ready (.ok ()) → s'.responseDone = true) ?_ ?_ ?_ s polls
  · exact fun s polls result left hresult _ => hresult
  · exact fun s polls c _ _ _ => rfl
  · exact fun s p polls _ _ _ _ _ _ _ _ _ _ _ ih => ih

/-- **The loop ends**: a transport that has an answer to every poll is polled a bounded number of
times, and how many further answers it has makes no difference. -/
theorem pollEstablish_returns (s : DuplexStream) (answers : ℕ → RecvPoll) {N : ℕ} (hN : 6160 < N) :
    ∃ n ≤ N, ∃ result s', ∀ m ≥ N, s.pollEstablish ((List.range m).map answers) =
      (result, s', ((List.range m).map answers).drop n) := by
  have hlen : ((List.range N).map answers).length = N := by simp
  obtain ⟨used, hused⟩ := pollEstablish_suffix s ((List.range N).map answers)
  have hle : used.length ≤ N := by
    have h := congrArg List.length hused
    rw [List.length_append, hlen] at h
    omega
  refine ⟨used.length, hle, (s.pollEstablish ((List.range N).map answers)).1,
    (s.pollEstablish ((List.range N).map answers)).2.1, fun m hm => ?_⟩
  obtain ⟨d, rfl⟩ := Nat.exists_eq_add_of_le hm
  have hdrop : ((List.range N).map answers).drop used.length =
      (s.pollEstablish ((List.range N).map answers)).2.2 := by
    conv_lhs => rw [← hused, List.drop_left]
  rw [List.range_add, List.map_append, pollEstablish_append (by omega),
    List.drop_append_of_le_length (hle.trans_eq hlen.symm), hdrop]

end DuplexStream

/-! ### The invariant -/

/-- The chunks read so far: each fits the buffer of a read and is not empty, and in front of the
last of them the parser asked for more. -/
structure HeaderReads (chunks : List Bytes) : Prop where
  chunk : ∀ filled ∈ chunks, filled ≠ [] ∧ filled.length ≤ 512
  needMore : ∀ init last, chunks = init ++ [last] → parseTcpResponse init.flatten = .needMore

namespace HeaderReads

variable {chunks : List Bytes}

theorem nil : HeaderReads [] := ⟨by simp, by simp⟩

theorem concat (h : HeaderReads chunks) (hparse : parseTcpResponse chunks.flatten = .needMore)
    {filled : Bytes} (hne : filled ≠ []) (hle : filled.length ≤ 512) :
    HeaderReads (chunks ++ [filled]) := by
  refine ⟨fun c hc => ?_, fun init last heq => ?_⟩
  · rcases List.mem_append.1 hc with hc | hc
    · exact h.chunk c hc
    · rw [List.mem_singleton.1 hc]
      exact ⟨hne, hle⟩
  · obtain ⟨rfl, -⟩ := List.append_inj' heq rfl
    exact hparse

/-- There are no more chunks than bytes. -/
theorem length_le_flatten (h : ∀ filled ∈ chunks, filled ≠ []) :
    chunks.length ≤ chunks.flatten.length := by
  induction chunks with
  | nil => exact Nat.le_refl 0
  | cons filled chunks ih =>
    obtain ⟨hne, htail⟩ := List.forall_mem_cons.1 h
    have hpos := List.length_pos_iff.2 hne
    have hle := ih htail
    rw [List.flatten_cons, List.length_append, List.length_cons]
    omega

/-- The bound on the number of reads. -/
theorem length_le (h : HeaderReads chunks) : chunks.length ≤ 6161 := by
  rcases chunks.eq_nil_or_concat' with rfl | ⟨init, last, rfl⟩
  · exact Nat.zero_le _
  · have hbytes := length_le_of_needMore (h.needMore init last rfl)
    have hle := length_le_flatten fun filled hfilled =>
      (h.chunk filled (List.mem_append_left [last] hfilled)).1
    rw [List.length_append, List.length_singleton]
    omega

/-- The bound on the bytes that are read. -/
theorem length_flatten_le (h : HeaderReads chunks) : chunks.flatten.length ≤ 6672 := by
  rcases chunks.eq_nil_or_concat' with rfl | ⟨init, last, rfl⟩
  · exact Nat.zero_le _
  · have hbytes := length_le_of_needMore (h.needMore init last rfl)
    have hlast := (h.chunk last (by simp)).2
    rw [List.flatten_append, List.flatten_singleton, List.length_append]
    omega

/-- The bound on the data that arrives in the read that completes the header. -/
theorem length_drop_le (h : HeaderReads chunks) {ok : Bool} {c : ℕ}
    (hparse : parseTcpResponse chunks.flatten = .done ok c) :
    (chunks.flatten.drop c).length ≤ 511 := by
  rcases chunks.eq_nil_or_concat' with rfl | ⟨init, last, rfl⟩
  · simp
  · have hlast := (h.chunk last (by simp)).2
    rw [List.flatten_append, List.flatten_singleton] at hparse ⊢
    have hlt := lt_of_needMore_of_done (h.needMore init last rfl) hparse
    rw [List.length_drop, List.length_append]
    omega

end HeaderReads

namespace DuplexStream

/-- The invariant of a stream with the bytes `S` of which `chunks` were read in the header phase. -/
inductive Bounded (S : Bytes) (chunks : List Bytes) (s : DuplexStream) : Prop where
  | header (hdone : s.responseDone = false) (hchunks : HeaderReads chunks)
      (hscratch : s.scratch = chunks.flatten) (hleft : s.leftover = []) (hpos : s.leftoverPos = 0)
      (hbytes : chunks.flatten ++ s.recv.rest = S) : Bounded S chunks s
  | data (hdone : s.responseDone = true) (hchunks : HeaderReads chunks) (hscratch : s.scratch = [])
      (hleft : s.leftover.length ≤ 511) (hpos : s.leftoverPos ≤ s.leftover.length)
      (hbytes : chunks.flatten <+: S) : Bounded S chunks s

variable {S : Bytes} {chunks : List Bytes} {s : DuplexStream}

theorem bounded_new (S : Bytes) : Bounded S [] (new ⟨S⟩) :=
  .header rfl .nil rfl rfl rfl rfl

theorem Bounded.headerReads (h : Bounded S chunks s) : HeaderReads chunks := by
  cases h <;> assumption

/-- A poll of the header phase keeps the invariant, with the chunks that it reads. -/
theorem Bounded.pollEstablish (h : Bounded S chunks s) (polls : List RecvPoll) :
    Bounded S (chunks ++ s.headerChunks polls) (s.pollEstablish polls).2.1 := by
  refine pollEstablish_induction (P := fun s _ _ s' _ read =>
    ∀ chunks, Bounded S chunks s → Bounded S (chunks ++ read) s') ?_ ?_ ?_ s polls chunks h
  · intro s polls result left _ _ chunks h
    rwa [List.append_nil]
  · intro s polls c hopen hparse chunks h
    cases h with
    | data hdone => simp [hopen] at hdone
    | header _ hchunks hscratch hleft hpos hbytes =>
      rw [List.append_nil]
      refine .data rfl hchunks rfl ?_ (hpos.trans_le (Nat.zero_le _)) ⟨_, hbytes⟩
      rw [hscratch] at hparse
      change (s.scratch.drop c).length ≤ 511
      rw [hscratch]
      exact hchunks.length_drop_le hparse
  · intro s p polls filled rest result s' left read hopen hparse hne hle hrest ih chunks h
    cases h with
    | data hdone => simp [hopen] at hdone
    | header _ hchunks hscratch hleft hpos hbytes =>
      rw [hscratch] at hparse
      have hnext := ih (chunks ++ [filled]) (.header hopen (hchunks.concat hparse hne hle)
        (by simp [hscratch]) hleft hpos (by simp [← hbytes, hrest]))
      rwa [List.append_assoc] at hnext

/-- A read in the data phase keeps the invariant. -/
theorem Bounded.pollData (h : Bounded S chunks s) (hdone : s.responseDone = true) (remaining : ℕ)
    (polls : List RecvPoll) : Bounded S chunks (s.pollData remaining polls).2 := by
  cases h with
  | header hopen => simp [hdone] at hopen
  | data _ hchunks hscratch hleft hpos hbytes =>
    unfold DuplexStream.pollData
    split_ifs with hlt
    · refine .data hdone hchunks hscratch hleft ?_ hbytes
      simp only [List.length_drop]
      omega
    · cases polls with
      | nil => exact .data hdone hchunks hscratch hleft hpos hbytes
      | cons p polls => exact .data hdone hchunks hscratch hleft hpos hbytes

end DuplexStream

/-! ### Sequences of calls -/

/-- One call that polls the receive side, with the transport's answers during the call: a wake-up of
`establish()`, or `poll_read` with the room in the caller's buffer. -/
inductive Call where
  | establish (polls : List RecvPoll)
  | read (remaining : ℕ) (polls : List RecvPoll)

/-- The transport's answers during a call. -/
def Call.polls : Call → List RecvPoll
  | .establish polls => polls
  | .read _ polls => polls

namespace DuplexStream

/-- The stream as a machine that answers calls; a wake-up of `establish()` delivers no bytes. -/
def serve (s : DuplexStream) : Call → Poll (Except IoError Bytes) × DuplexStream
  | .establish polls =>
    match s.pollEstablish polls with
    | (.ready (.ok ()), s, _) => (.ready (.ok []), s)
    | (.ready (.error e), s, _) => (.ready (.error e), s)
    | (.pending, s, _) => (.pending, s)
  | .read remaining polls => s.pollRead remaining polls

variable {S : Bytes} {chunks : List Bytes} {s : DuplexStream}

/-- A call keeps the invariant. -/
theorem Bounded.serve (h : Bounded S chunks s) (c : Call) :
    Bounded S (chunks ++ s.headerChunks c.polls) (s.serve c).2 := by
  have hstep := h.pollEstablish c.polls
  cases c with
  | establish polls =>
    have hstate : (s.serve (.establish polls)).2 = (s.pollEstablish polls).2.1 := by
      rw [DuplexStream.serve]
      split <;> simp only [*]
    rwa [hstate]
  | read remaining polls =>
    change Bounded S (chunks ++ s.headerChunks polls) (s.pollEstablish polls).2.1 at hstep
    change Bounded S (chunks ++ s.headerChunks polls) (s.pollRead remaining polls).2
    by_cases hdone : s.responseDone = true
    · rw [DuplexStream.pollRead, if_pos hdone, DuplexStream.headerChunks.eq_def, if_pos hdone,
        List.append_nil]
      exact h.pollData hdone remaining polls
    · have haccept := responseDone_of_pollEstablish s polls
      rw [DuplexStream.pollRead, if_neg hdone]
      split
      · rename_i s' left heq
        rw [heq] at hstep haccept
        exact hstep.pollData (haccept rfl) remaining left
      · rename_i e s' left heq
        rwa [heq] at hstep
      · rename_i s' left heq
        rwa [heq] at hstep

/-- A sequence of calls keeps the invariant. -/
theorem Bounded.calls (h : Bounded S [] s) (calls : List Call) :
    Bounded S (Mealy.collect DuplexStream.serve (fun s c => s.headerChunks c.polls) s calls)
      (Mealy.final DuplexStream.serve s calls) := by
  induction calls using List.reverseRecOn with
  | nil => exact h
  | append_singleton calls c ih =>
    rw [Mealy.collect_concat, Mealy.final_concat]
    exact ih.serve c

end DuplexStream

/-- **Establishing a stream takes bounded resources against any server.** The parser asks for more
only on a short buffer. After every sequence of calls on a stream with any bytes, in any chunks and
with a transport that may fail, what the stream holds is bounded; the next poll ends even if the
transport has an answer to every poll; and the chunks read in the header phase, over all calls, are
bounded in number. -/
theorem establishment_bounded (recv : RecvStream) (calls : List Call) :
    let s := Mealy.final DuplexStream.serve (.new recv) calls
    let chunks := Mealy.collect DuplexStream.serve (fun s c => s.headerChunks c.polls)
      (.new recv) calls
    (∀ b, parseTcpResponse b = .needMore → b.length ≤ 6160) ∧
      s.scratch.length ≤ 6672 ∧ s.leftover.length ≤ 511 ∧ s.leftoverPos ≤ s.leftover.length ∧
      (∀ answers : ℕ → RecvPoll, ∃ n ≤ 6161, ∃ result s', ∀ m ≥ 6161,
        s.pollEstablish ((List.range m).map answers) =
          (result, s', ((List.range m).map answers).drop n)) ∧
      chunks.length ≤ 6161 ∧ (∀ filled ∈ chunks, filled ≠ []) ∧ chunks.flatten <+: recv.rest := by
  intro s chunks
  have hbounded : s.Bounded recv.rest chunks :=
    (DuplexStream.bounded_new recv.rest).calls calls
  have hchunks := hbounded.headerReads
  obtain ⟨hscratch, hleft, hpos, hbytes⟩ : s.scratch.length ≤ 6672 ∧ s.leftover.length ≤ 511 ∧
      s.leftoverPos ≤ s.leftover.length ∧ chunks.flatten <+: recv.rest := by
    cases hbounded with
    | header _ _ hscratch hleft hpos hbytes =>
      exact ⟨hscratch ▸ hchunks.length_flatten_le, by simp [hleft], by simp [hpos], _, hbytes⟩
    | data _ _ hscratch hleft hpos hbytes => exact ⟨by simp [hscratch], hleft, hpos, hbytes⟩
  exact ⟨fun b => length_le_of_needMore, hscratch, hleft, hpos,
    fun answers => s.pollEstablish_returns answers (by omega), hchunks.length_le,
    fun filled hfilled => (hchunks.chunk filled hfilled).1, hbytes⟩

end Rsteria.Stream
