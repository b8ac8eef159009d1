import Rsteria.Stream

/-!
# Streams without an accepted response

What the application sees of a `DuplexStream` when the server's bytes `S` do not begin with a
complete response of status 0: the server refuses, a length field exceeds its guard, or the stream
ends inside the header. Which of these it is depends on `S` alone (`failure`), since the parser is
stable under extension, and the error paths leave the state in such a way that every later poll runs
into the same error: `scratch` keeps what was read and the response is never marked as done.

A transport that has reported the end of the stream reports it again to every later poll. In the
model the transport is free at each poll, so that a call after the failure gets the error again
provided that the transport answers it (`ReadCall.Answered`); only at the end of the stream does the
call ask the transport at all.

## Main definitions

* `Stream.failure` : the error of a stream.
* `Stream.DuplexStream.Unaccepted`, `Stream.DuplexStream.Settled` : the invariant of a stream
  without an accepted response, and the states in which it has failed.

## Main results

* `Stream.failed_establishment` : every poll waits or fails with the error of the stream.
-/

namespace Rsteria.Stream

open Protocol

/-- The error of a stream `S` that does not begin with a complete response of status 0. -/
def failure (S : Bytes) : IoError :=
  match parseTcpResponse S with
  | .done _ _ => ⟨.connectionRefused, "hysteria2: server rejected tcp_connect"⟩
  | .invalid => ⟨.invalidData, "hysteria2: malformed TCPResponse (length guard exceeded)"⟩
  | .needMore => ⟨.unexpectedEof, "hysteria2: stream closed before TCPResponse"⟩

/-- The stream begins with a complete response of the given status. -/
def BeginsWithResponse (ok : Bool) (S : Bytes) : Prop :=
  ∃ c ≤ S.length, IsTcpResponse ok (S.take c)

theorem beginsWithResponse_iff {ok : Bool} {S : Bytes} :
    BeginsWithResponse ok S ↔ ∃ c, parseTcpResponse S = .done ok c := by
  simp only [BeginsWithResponse, parseTcpResponse_done_iff_isTcpResponse]

/-- Which error it is. -/
theorem failure_kind {S : Bytes} (hS : ¬ BeginsWithResponse true S) :
    (BeginsWithResponse false S → (failure S).kind = .connectionRefused) ∧
      (MsgLenExceeds S ∨ PadLenExceeds S → (failure S).kind = .invalidData) ∧
      (¬ BeginsWithResponse false S → ¬ MsgLenExceeds S → ¬ PadLenExceeds S →
        (failure S).kind = .unexpectedEof) := by
  refine ⟨fun h => ?_, fun h => ?_, fun hrefused hmsg hpad => ?_⟩
  · obtain ⟨c, hc⟩ := beginsWithResponse_iff.1 h
    rw [failure, hc]
  · rw [failure, parseTcpResponse_invalid_iff_exceeds.2 h]
  · cases hparse : parseTcpResponse S with
    | needMore => rw [failure, hparse]
    | done ok c =>
      cases ok with
      | true => exact absurd (beginsWithResponse_iff.2 ⟨c, hparse⟩) hS
      | false => exact absurd (beginsWithResponse_iff.2 ⟨c, hparse⟩) hrefused
    | invalid =>
      rcases parseTcpResponse_invalid_iff_exceeds.1 hparse with h | h
      · exact absurd h hmsg
      · exact absurd h hpad

namespace DuplexStream

/-- The response is not done, and every byte of the stream is in `scratch` or still to come. -/
structure Unaccepted (S : Bytes) (s : DuplexStream) : Prop where
  not_done : s.responseDone = false
  bytes : s.scratch ++ s.recv.rest = S

/-- The stream has failed: the parser has given its answer, or nothing is to come. -/
def Settled (s : DuplexStream) : Prop := parseTcpResponse s.scratch ≠ .needMore ∨ s.recv.rest = []

variable {S : Bytes} {s : DuplexStream}

theorem unaccepted_new (S : Bytes) : Unaccepted S (new ⟨S⟩) := ⟨rfl, rfl⟩

/-- A poll of a stream on which the parser has given its answer fails. -/
theorem Unaccepted.pollEstablish_of_parsed (hS : ¬ BeginsWithResponse true S)
    (h : Unaccepted S s) (hparse : parseTcpResponse s.scratch ≠ .needMore)
    (polls : List RecvPoll) :
    s.pollEstablish polls = (.ready (.error (failure S)), s, polls) := by
  have hfull : parseTcpResponse S = parseTcpResponse s.scratch := by
    rw [← h.bytes, parseTcpResponse_append hparse]
  rw [DuplexStream.pollEstablish.eq_def, h.not_done, failure, hfull]
  cases hscratch : parseTcpResponse s.scratch with
  | needMore => exact absurd hscratch hparse
  | invalid => rfl
  | done ok c =>
    cases ok with
    | true => exact absurd (beginsWithResponse_iff.2 ⟨c, hfull.trans hscratch⟩) hS
    | false => rfl

/-- A poll that finds the end of the stream inside the header fails. -/
theorem Unaccepted.pollEstablish_of_eof (h : Unaccepted S s)
    (hparse : parseTcpResponse s.scratch = .needMore) (hrest : s.recv.rest = []) (n : ℕ)
    (polls : List RecvPoll) :
    s.pollEstablish (.ready n :: polls) = (.ready (.error (failure S)), s, polls) := by
  have hfull : s.scratch = S := by rw [← h.bytes, hrest, List.append_nil]
  have hrecv : (⟨[]⟩ : RecvStream) = s.recv := by rw [← hrest]
  rw [DuplexStream.pollEstablish.eq_def, if_neg (by simp [h.not_done]), hparse, failure, ← hfull,
    hparse]
  simp [RecvStream.pollRead, hrest, hrecv]

/-- **One poll of the header phase.** It waits or fails with the error of the stream, and then the
stream is settled. -/
theorem Unaccepted.pollEstablish (hS : ¬ BeginsWithResponse true S) {polls : List RecvPoll}
    (hpolls : Healthy polls) (h : Unaccepted S s) :
    ∃ s' rest, Unaccepted S s' ∧ (s.Settled → s'.Settled) ∧
      (s.pollEstablish polls = (.pending, s', rest) ∨
        s.pollEstablish polls = (.ready (.error (failure S)), s', rest) ∧ s'.Settled) := by
  induction polls generalizing s with
  | nil =>
    by_cases hparse : parseTcpResponse s.scratch = .needMore
    · exact ⟨s, [], h, id, .inl (pollEstablish_nil h.not_done hparse)⟩
    · exact ⟨s, [], h, id, .inr ⟨h.pollEstablish_of_parsed hS hparse [], .inl hparse⟩⟩
  | cons p polls ih =>
    obtain ⟨hp, htail⟩ := healthy_cons.1 hpolls
    by_cases hparse : parseTcpResponse s.scratch = .needMore
    · by_cases hrest : s.recv.rest = []
      · cases p with
        | pending =>
          refine ⟨s, polls, h, id, .inl ?_⟩
          rw [DuplexStream.pollEstablish.eq_def, if_neg (by simp [h.not_done]), hparse]
          rfl
        | error e => exact absurd rfl (hp e)
        | ready n =>
          exact ⟨s, polls, h, id, .inr ⟨h.pollEstablish_of_eof hparse hrest n polls, .inr hrest⟩⟩
      · rcases pollEstablish_cons polls h.not_done hparse hp hrest with hstep | ⟨k, -, hstep⟩
        · exact ⟨s, polls, h, id, .inl hstep⟩
        · rw [hstep]
          obtain ⟨s', rest, hs', -, hcase⟩ := ih htail (s := { s with
            recv := ⟨s.recv.rest.drop k⟩, scratch := s.scratch ++ s.recv.rest.take k })
            ⟨h.not_done, by rw [List.append_assoc, List.take_append_drop, h.bytes]⟩
          refine ⟨s', rest, hs', fun hsettled => ?_, hcase⟩
          rcases hsettled with hparsed | hnil
          · exact absurd hparse hparsed
          · exact absurd hnil hrest
    · exact ⟨s, p :: polls, h, id, .inr ⟨h.pollEstablish_of_parsed hS hparse _, .inl hparse⟩⟩

/-- A stream that has failed fails again, at the end of the stream provided that the transport
answers. -/
theorem Unaccepted.pollEstablish_of_settled (hS : ¬ BeginsWithResponse true S)
    (h : Unaccepted S s) (hsettled : s.Settled) {polls : List RecvPoll}
    (hanswer : (failure S).kind = .unexpectedEof → ∃ n rest, polls = .ready n :: rest) :
    ∃ rest, s.pollEstablish polls = (.ready (.error (failure S)), s, rest) := by
  by_cases hparse : parseTcpResponse s.scratch = .needMore
  · have hrest : s.recv.rest = [] := hsettled.resolve_left (not_not.2 hparse)
    have hfull : s.scratch = S := by rw [← h.bytes, hrest, List.append_nil]
    obtain ⟨n, rest, rfl⟩ := hanswer (by rw [failure, ← hfull, hparse])
    exact ⟨rest, h.pollEstablish_of_eof hparse hrest n rest⟩
  · exact ⟨polls, h.pollEstablish_of_parsed hS hparse polls⟩

/-- Driving the header to completion waits or fails. -/
theorem Unaccepted.establish (hS : ¬ BeginsWithResponse true S) {wakes : List (List RecvPoll)}
    (hwakes : ∀ polls ∈ wakes, Healthy polls) (h : Unaccepted S s) :
    ∃ s', Unaccepted S s' ∧ (s.establish wakes = (.pending, s') ∨
      s.establish wakes = (.ready (.error (failure S)), s') ∧ s'.Settled) := by
  induction wakes generalizing s with
  | nil => exact ⟨s, h, .inl rfl⟩
  | cons polls wakes ih =>
    obtain ⟨hpolls, htail⟩ := List.forall_mem_cons.1 hwakes
    obtain ⟨s', rest, hs', -, hstep | ⟨hstep, hsettled⟩⟩ := h.pollEstablish hS hpolls
    · simpa only [DuplexStream.establish, hstep] using ih htail hs'
    · exact ⟨s', hs', .inr ⟨by simp only [DuplexStream.establish, hstep], hsettled⟩⟩

/-- A read is a poll of the header phase. -/
theorem Unaccepted.pollRead (hS : ¬ BeginsWithResponse true S) {polls : List RecvPoll}
    (hpolls : Healthy polls) (remaining : ℕ) (h : Unaccepted S s) :
    ∃ s', Unaccepted S s' ∧ (s.Settled → s'.Settled) ∧
      (s.pollRead remaining polls = (.pending, s') ∨
        s.pollRead remaining polls = (.ready (.error (failure S)), s') ∧ s'.Settled) := by
  unfold DuplexStream.pollRead
  simp only [h.not_done, Bool.false_eq_true, if_false]
  obtain ⟨s', rest, hs', hkeep, hstep | ⟨hstep, hsettled⟩⟩ := h.pollEstablish hS hpolls
  · exact ⟨s', hs', hkeep, .inl (by rw [hstep])⟩
  · exact ⟨s', hs', hkeep, .inr ⟨by rw [hstep], hsettled⟩⟩

theorem Unaccepted.pollRead_of_settled (hS : ¬ BeginsWithResponse true S) (h : Unaccepted S s)
    (hsettled : s.Settled) (remaining : ℕ) {polls : List RecvPoll}
    (hanswer : (failure S).kind = .unexpectedEof → ∃ n rest, polls = .ready n :: rest) :
    (s.pollRead remaining polls).1 = .ready (.error (failure S)) := by
  obtain ⟨rest, hstep⟩ := h.pollEstablish_of_settled hS hsettled hanswer
  unfold DuplexStream.pollRead
  simp only [h.not_done, Bool.false_eq_true, if_false, hstep]

end DuplexStream

/-! ### Sequences of reads -/

/-- The transport answers the first poll that is made of it in the call. -/
def ReadCall.Answered (c : ReadCall) : Prop := ∃ n rest, c.polls = .ready n :: rest

open Mealy DuplexStream in
/-- A sequence of reads waits or fails, and the stream is settled after a failure. -/
theorem DuplexStream.Unaccepted.reads {S : Bytes} {s : DuplexStream}
    (hS : ¬ BeginsWithResponse true S) (h : Unaccepted S s) {calls : List ReadCall}
    (hcalls : ∀ c ∈ calls, Healthy c.polls) :
    Unaccepted S (final read s calls) ∧
      (∀ r ∈ outputs read s calls, r = .pending ∨ r = .ready (.error (failure S))) ∧
      (s.Settled ∨ .ready (.error (failure S)) ∈ outputs read s calls →
        (final read s calls).Settled) := by
  induction calls generalizing s with
  | nil => exact ⟨h, by simp, by simp⟩
  | cons c calls ih =>
    obtain ⟨hc, htail⟩ := List.forall_mem_cons.1 hcalls
    obtain ⟨s', hs', hkeep, hread⟩ := h.pollRead hS hc c.remaining
    have hstep : (s.read c).2 = s' := by
      rcases hread with hread | ⟨hread, -⟩ <;> rw [DuplexStream.read, hread]
    obtain ⟨hfinal, hresults, hsettled⟩ := ih hs' htail
    rw [final_cons, outputs_cons, hstep]
    refine ⟨hfinal, ?_, ?_⟩
    · rw [List.forall_mem_cons]
      refine ⟨?_, hresults⟩
      rcases hread with hread | ⟨hread, -⟩
      · exact .inl (by rw [DuplexStream.read, hread])
      · exact .inr (by rw [DuplexStream.read, hread])
    · rintro (hs | hmem)
      · exact hsettled (.inl (hkeep hs))
      · rcases List.mem_cons.1 hmem with heq | hmem
        · rcases hread with hread | ⟨-, hs⟩
          · rw [DuplexStream.read, hread] at heq
            exact absurd heq (by simp)
          · exact hsettled (.inl hs)
        · exact hsettled (.inr hmem)

/-- What the application sees of a stream that fails with the error `e`: the result of
`establish()`, and the results of the reads after it. -/
structure FailsWith (e : IoError) (established : Poll (Except IoError Unit))
    (calls : List ReadCall) (results : List (Poll (Except IoError Bytes))) : Prop where
  /-- `establish()` waits or fails. -/
  establish : established = .pending ∨ established = .ready (.error e)
  /-- Every read waits or fails. -/
  read : ∀ r ∈ results, r = .pending ∨ r = .ready (.error e)
  /-- No byte is delivered. -/
  noData : delivered results = []
  /-- A call after the first failure fails again. -/
  sticky : ∀ (t : ℕ) (c : ReadCall), calls[t]? = some c →
    (e.kind = .unexpectedEof → c.Answered) →
    established = .ready (.error e) ∨ .ready (.error e) ∈ results.take t →
      results[t]? = some (.ready (.error e))

/-- **Failed establishment depends on the stream alone.** If the server's bytes `S` do not begin
with a complete response of status 0, then for every chunking of them by a transport that does not
fail, after `establish()` or without it, every read waits or fails with the error of `S`, which is
the same for all of them. Fast-open decides whether `tcp_connect` fails with it or the reads do. -/
theorem failed_establishment (S : Bytes) (hS : ¬ BeginsWithResponse true S)
    (wakes : List (List RecvPoll)) (hwakes : ∀ polls ∈ wakes, Healthy polls)
    (calls : List ReadCall) (hcalls : ∀ c ∈ calls, Healthy c.polls) :
    FailsWith (failure S) ((DuplexStream.new ⟨S⟩).establish wakes).1 calls
        (Mealy.outputs DuplexStream.read ((DuplexStream.new ⟨S⟩).establish wakes).2 calls) ∧
      tcpConnect true ⟨S⟩ wakes = .ready (.ok (DuplexStream.new ⟨S⟩)) ∧
      (tcpConnect false ⟨S⟩ wakes = .pending ∨
        tcpConnect false ⟨S⟩ wakes = .ready (.error (failure S))) ∧
      (BeginsWithResponse false S → (failure S).kind = .connectionRefused) ∧
      (MsgLenExceeds S ∨ PadLenExceeds S → (failure S).kind = .invalidData) ∧
      (¬ BeginsWithResponse false S → ¬ MsgLenExceeds S → ¬ PadLenExceeds S →
        (failure S).kind = .unexpectedEof) := by
  obtain ⟨s', hs', hestablish⟩ := (DuplexStream.unaccepted_new S).establish hS hwakes
  have hstate : ((DuplexStream.new ⟨S⟩).establish wakes).2 = s' := by
    rcases hestablish with h | ⟨h, -⟩ <;> rw [h]
  obtain ⟨-, hresults, -⟩ := hs'.reads hS hcalls
  refine ⟨⟨?_, ?_, ?_, ?_⟩, rfl, ?_, failure_kind hS⟩
  · rcases hestablish with h | ⟨h, -⟩
    · exact .inl (by rw [h])
    · exact .inr (by rw [h])
  · rwa [hstate]
  · rw [hstate, delivered, List.flatMap_eq_nil_iff]
    intro r hr
    rcases hresults r hr with rfl | rfl <;> rfl
  · rw [hstate]
    intro t c hc hanswer hfailed
    have hprefix : ∀ c ∈ calls.take t, Healthy c.polls :=
      fun c hc => hcalls c (List.mem_of_mem_take hc)
    obtain ⟨hfinal, -, hsettled⟩ := hs'.reads hS hprefix
    have hsettled : (Mealy.final DuplexStream.read s' (calls.take t)).Settled := by
      apply hsettled
      rw [Mealy.take_outputs] at hfailed
      refine hfailed.imp_left fun herror => ?_
      rcases hestablish with h | ⟨-, hs⟩
      · rw [h] at herror
        exact absurd herror (by simp)
      · exact hs
    rw [Mealy.getElem?_outputs, hc, Option.map_some]
    exact congrArg some (hfinal.pollRead_of_settled hS hsettled c.remaining hanswer)
  · rcases hestablish with h | ⟨h, -⟩
    · exact .inl (by simp [tcpConnect, h])
    · exact .inr (by simp [tcpConnect, h])

/-- A stream of a status and an empty message that ends inside the header: two reads, and the second
one fails like the first. -/
theorem failed_establishment_truncated :
    FailsWith (failure [0, 0]) .pending [⟨9, [.ready 9, .ready 9]⟩, ⟨9, [.ready 9]⟩]
        [.ready (.error (failure [0, 0])), .ready (.error (failure [0, 0]))] ∧
      (failure [0, 0]).kind = .unexpectedEof := by
  have hS : ¬ BeginsWithResponse true [0, 0] := by
    have hparse : parseTcpResponse [0, 0] = .needMore := by decide
    rw [beginsWithResponse_iff, hparse]
    rintro ⟨c, hc⟩
    exact absurd hc (by simp)
  refine ⟨(failed_establishment [0, 0] hS [] (by simp)
    [⟨9, [.ready 9, .ready 9]⟩, ⟨9, [.ready 9]⟩] ?_).1, by decide⟩
  simp only [List.forall_mem_cons]
  exact ⟨healthy_of_all rfl, healthy_of_all rfl, by simp⟩

end Rsteria.Stream
