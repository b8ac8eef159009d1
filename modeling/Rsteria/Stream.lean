import Rsteria.Lib.Mealy
import Rsteria.Poll
import Rsteria.Protocol.TcpResponse

/-!
# The proxied TCP stream

`DuplexStream` is the stream that `src/stream.rs` hands to the application. The server's bytes are a
response header followed by application data, and the reader crosses three phases: the header is
collected in `scratch`, the data that arrived in the same read as the end of the header is kept in
`leftover` behind the cursor `leftoverPos`, and from then on reads pass through to the QUIC stream.

The receive side of the QUIC stream is a byte string of which `RecvStream.rest` is still to come. It
is read by polls, and `RecvPoll` is the transport's choice at one poll: `pending`, `ready n` for a
chunk of at most `n` bytes (at least one, no more than the buffer has room for, and none at the end
of the stream), or an error. A poll of the duplex stream may poll the transport several times, so it
takes the list of the transport's answers; the transport is `pending` after the last of them.

## Main definitions

* `Stream.RecvStream`, `Stream.RecvPoll`, `Stream.RecvStream.pollRead`.
* `Stream.DuplexStream`, `Stream.DuplexStream.pollEstablish`, `Stream.DuplexStream.pollRead`,
  `Stream.DuplexStream.establish`, `Stream.tcpConnect`.
* `Stream.DuplexStream.Carries` : the invariant of a stream whose header accepts.

## Main results

* `Stream.DuplexStream.Carries.pollEstablish`, `Stream.DuplexStream.Carries.pollRead` : the
  invariant is kept by a poll.
* `Stream.tcpConnect_delivers_exactly` : every read, with and without fast-open, delivers the
  application bytes in order.
-/

namespace Rsteria.Stream

open Protocol

/-! ### The receive side of a QUIC stream -/

/-- The transport's answer to one poll of the receive side. -/
inductive RecvPoll where
  /-- Nothing is available yet. -/
  | pending
  /-- A chunk of at most `n` bytes is available. -/
  | ready (n : ℕ)
  /-- The transport fails. -/
  | error (e : IoError)
  deriving DecidableEq, Repr

/-- The receive side of a QUIC stream: the bytes that the application has not read yet. -/
structure RecvStream where
  rest : Bytes
  deriving DecidableEq, Repr

/-- Read into a buffer with room for `remaining` bytes. The result lists the bytes put into the
buffer; an empty result for a buffer with room is the end of the stream, and it is repeated. -/
def RecvStream.pollRead (r : RecvStream) (remaining : ℕ) :
    RecvPoll → Poll (Except IoError Bytes) × RecvStream
  | .pending => (.pending, r)
  | .error e => (.ready (.error e), r)
  | .ready n =>
    let k := min (max n 1) remaining
    (.ready (.ok (r.rest.take k)), ⟨r.rest.drop k⟩)

/-! ### The duplex stream -/

/-- A proxied TCP connection over a QUIC stream. The send side passes through and is not part of the
state. -/
structure DuplexStream where
  recv : RecvStream
  responseDone : Bool
  scratch : Bytes
  leftover : Bytes
  leftoverPos : ℕ
  deriving DecidableEq, Repr

namespace DuplexStream

/-- `DuplexStream::new`. -/
def new (recv : RecvStream) : DuplexStream where
  recv := recv
  responseDone := false
  scratch := []
  leftover := []
  leftoverPos := 0

/-- Phase 1: consume the response header before yielding any application data. Every turn of the
loop that reads uses one answer of the transport; the unused answers are returned. -/
def pollEstablish (me : DuplexStream) (polls : List RecvPoll) :
    Poll (Except IoError Unit) × DuplexStream × List RecvPoll :=
  if me.responseDone then
    (.ready (.ok ()), me, polls)
  else
    match parseTcpResponse me.scratch with
    | .done ok consumed =>
      if !ok then
        (.ready (.error ⟨.connectionRefused, "hysteria2: server rejected tcp_connect"⟩), me, polls)
      else
        (.ready (.ok ()),
          { me with leftover := me.scratch.drop consumed, scratch := [], responseDone := true },
          polls)
    | .invalid =>
      (.ready (.error ⟨.invalidData, "hysteria2: malformed TCPResponse (length guard exceeded)"⟩),
        me, polls)
    | .needMore =>
      match polls with
      | [] => (.pending, me, [])
      | p :: polls =>
        match me.recv.pollRead 512 p with
        | (.ready (.ok filled), recv) =>
          if filled.isEmpty then
            (.ready (.error ⟨.unexpectedEof, "hysteria2: stream closed before TCPResponse"⟩),
              { me with recv := recv }, polls)
          else
            pollEstablish { me with recv := recv, scratch := me.scratch ++ filled } polls
        | (.ready (.error e), recv) => (.ready (.error e), { me with recv := recv }, polls)
        | (.pending, recv) => (.pending, { me with recv := recv }, polls)
termination_by structural polls

/-- Drive the header to completion. Each element of the list is one wake-up of the task, with the
answers of the transport to the polls made in it. -/
def establish (me : DuplexStream) :
    List (List RecvPoll) → Poll (Except IoError Unit) × DuplexStream
  | [] => (.pending, me)
  | polls :: wakes =>
    match me.pollEstablish polls with
    | (.ready r, me, _) => (.ready r, me)
    | (.pending, me, _) => establish me wakes

/-- Phases 2 and 3 of a read: drain the application data that arrived in the same batch as the
header, then pass through. -/
def pollData (me : DuplexStream) (remaining : ℕ) (polls : List RecvPoll) :
    Poll (Except IoError Bytes) × DuplexStream :=
  if me.leftoverPos < me.leftover.length then
    let rest := me.leftover.drop me.leftoverPos
    let n := min rest.length remaining
    (.ready (.ok (rest.take n)), { me with leftoverPos := me.leftoverPos + n })
  else
    match polls with
    | [] => (.pending, me)
    | p :: _ =>
      let (result, recv) := me.recv.pollRead remaining p
      (result, { me with recv := recv })

/-- Read into a buffer with room for `remaining` bytes. -/
def pollRead (me : DuplexStream) (remaining : ℕ) (polls : List RecvPoll) :
    Poll (Except IoError Bytes) × DuplexStream :=
  if me.responseDone then
    me.pollData remaining polls
  else
    match me.pollEstablish polls with
    | (.ready (.ok ()), me, polls) => me.pollData remaining polls
    | (.ready (.error e), me, _) => (.ready (.error e), me)
    | (.pending, me, _) => (.pending, me)

end DuplexStream

/-- The end of `HysteriaClient::tcp_connect`, after the request was written: with fast-open the
stream is returned at once, without it the response is awaited first. -/
def tcpConnect (fastOpen : Bool) (recv : RecvStream) (wakes : List (List RecvPoll)) :
    Poll (Except IoError DuplexStream) :=
  let stream := DuplexStream.new recv
  if !fastOpen then
    match stream.establish wakes with
    | (.ready (.ok ()), stream) => .ready (.ok stream)
    | (.ready (.error e), _) => .ready (.error e)
    | (.pending, _) => .pending
  else
    .ready (.ok stream)

/-! ### The invariant of an accepted stream -/

/-- A transport that does not fail. -/
def Healthy (polls : List RecvPoll) : Prop := ∀ p ∈ polls, ∀ e, p ≠ .error e

theorem healthy_cons {p : RecvPoll} {polls : List RecvPoll} :
    Healthy (p :: polls) ↔ (∀ e, p ≠ .error e) ∧ Healthy polls :=
  List.forall_mem_cons

theorem healthy_of_all {polls : List RecvPoll}
    (h : polls.all (fun p => p matches .pending | .ready _)) : Healthy polls := by
  rintro p hp e rfl
  simpa using List.all_eq_true.1 h _ hp

/-- What a read of a healthy transport returns: nothing yet, or a chunk from the front that is not
empty unless the buffer has no room or the stream has ended. -/
theorem RecvStream.pollRead_cases (r : RecvStream) (remaining : ℕ) {p : RecvPoll}
    (hp : ∀ e, p ≠ .error e) :
    r.pollRead remaining p = (.pending, r) ∨
      ∃ k, k ≤ remaining ∧ (0 < remaining → 0 < k) ∧
        r.pollRead remaining p = (.ready (.ok (r.rest.take k)), ⟨r.rest.drop k⟩) := by
  cases p with
  | pending => exact .inl rfl
  | error e => exact absurd rfl (hp e)
  | ready n => exact .inr ⟨min (max n 1) remaining, by omega, by omega, rfl⟩

namespace DuplexStream

/-- The invariant of a stream whose bytes are the header `H` followed by `A`, of which the
application has read `out`: before the header is complete every byte is in `scratch` or still to
come, and afterwards `A` is what was read, what is left over and what is still to come. -/
inductive Carries (H A : Bytes) : Bytes → DuplexStream → Prop where
  | header {s : DuplexStream} (hdone : s.responseDone = false) (hpos : s.leftoverPos = 0)
      (hbytes : s.scratch ++ s.recv.rest = H ++ A) : Carries H A [] s
  | data {s : DuplexStream} {out : Bytes} (hdone : s.responseDone = true)
      (hbytes : out ++ (s.leftover.drop s.leftoverPos ++ s.recv.rest) = A) : Carries H A out s

/-- The application bytes that the stream still holds, behind a header of `h` bytes. -/
def undelivered (h : ℕ) (s : DuplexStream) : Bytes :=
  if s.responseDone then s.leftover.drop s.leftoverPos ++ s.recv.rest
  else (s.scratch ++ s.recv.rest).drop h

variable {H A out : Bytes} {s : DuplexStream}

theorem carries_new (H A : Bytes) : Carries H A [] (new ⟨H ++ A⟩) :=
  .header rfl rfl rfl

theorem Carries.append_undelivered (h : Carries H A out s) :
    out ++ s.undelivered H.length = A := by
  cases h with
  | header hdone hpos hbytes =>
    rw [undelivered, hdone, if_neg Bool.false_ne_true, hbytes, List.drop_left, List.nil_append]
  | data hdone hbytes => rwa [undelivered, if_pos hdone]

theorem pollEstablish_of_responseDone (hdone : s.responseDone = true) (polls : List RecvPoll) :
    s.pollEstablish polls = (.ready (.ok ()), s, polls) := by
  rw [DuplexStream.pollEstablish.eq_def, if_pos hdone]

theorem pollEstablish_of_done {c : ℕ} (hdone : s.responseDone = false)
    (hparse : parseTcpResponse s.scratch = .done true c) (polls : List RecvPoll) :
    s.pollEstablish polls = (.ready (.ok ()),
      { s with leftover := s.scratch.drop c, scratch := [], responseDone := true }, polls) := by
  rw [DuplexStream.pollEstablish.eq_def, hdone, hparse]
  rfl

theorem pollEstablish_nil (hdone : s.responseDone = false)
    (hparse : parseTcpResponse s.scratch = .needMore) :
    s.pollEstablish [] = (.pending, s, []) := by
  rw [DuplexStream.pollEstablish.eq_def, hdone, hparse]
  rfl

/-- A turn of the loop in which the header is incomplete and the transport does not fail. -/
theorem pollEstablish_cons {p : RecvPoll} (polls : List RecvPoll) (hdone : s.responseDone = false)
    (hparse : parseTcpResponse s.scratch = .needMore) (hp : ∀ e, p ≠ .error e)
    (hrest : s.recv.rest ≠ []) :
    s.pollEstablish (p :: polls) = (.pending, s, polls) ∨
      ∃ k, 0 < k ∧ s.pollEstablish (p :: polls) = pollEstablish { s with
        recv := ⟨s.recv.rest.drop k⟩, scratch := s.scratch ++ s.recv.rest.take k } polls := by
  rw [DuplexStream.pollEstablish.eq_def, if_neg (by simp [hdone]), hparse]
  rcases s.recv.pollRead_cases 512 hp with hread | ⟨k, -, hk, hread⟩
  · exact .inl (by simp [hread])
  · refine .inr ⟨k, hk (by omega), ?_⟩
    have hne : (s.recv.rest.take k).isEmpty = false := by
      rw [List.isEmpty_eq_false_iff, ne_eq, List.take_eq_nil_iff]
      have := hk (by omega)
      simp [hrest]
      omega
    simp [hread, hne]

/-- In the header phase either the header is still incomplete, and bytes are to come, or it is
accepted and the data phase starts with nothing delivered. -/
theorem header_cases (hH : parseTcpResponse H = .done true H.length) (hpos : s.leftoverPos = 0)
    (hbytes : s.scratch ++ s.recv.rest = H ++ A) :
    parseTcpResponse s.scratch = .needMore ∧ s.recv.rest ≠ [] ∨
      parseTcpResponse s.scratch = .done true H.length ∧ Carries H A []
        { s with leftover := s.scratch.drop H.length, scratch := [], responseDone := true } := by
  rcases parseTcpResponse_prefix hH ⟨s.recv.rest, hbytes⟩ with ⟨hparse, hlt⟩ | ⟨hparse, hle⟩
  · refine .inl ⟨hparse, fun hnil => ?_⟩
    have hlen := congrArg List.length hbytes
    simp only [hnil, List.length_append, List.length_nil] at hlen
    omega
  · refine .inr ⟨hparse, .data rfl ?_⟩
    rw [hpos, List.nil_append, List.drop_zero]
    change s.scratch.drop H.length ++ s.recv.rest = A
    rw [← List.drop_append_of_le_length hle, hbytes, List.drop_left]

/-- A poll of the header phase keeps the invariant and ends it or waits; it never fails. -/
theorem Carries.pollEstablish (hH : parseTcpResponse H = .done true H.length)
    {polls : List RecvPoll} (hpolls : Healthy polls) (h : Carries H A out s) :
    ∃ s' rest, Healthy rest ∧ Carries H A out s' ∧
      (s.pollEstablish polls = (.pending, s', rest) ∨
        s.pollEstablish polls = (.ready (.ok ()), s', rest) ∧ s'.responseDone = true) := by
  induction polls generalizing s with
  | nil =>
    cases h with
    | data hdone hbytes =>
      exact ⟨s, [], hpolls, .data hdone hbytes,
        .inr ⟨pollEstablish_of_responseDone hdone [], hdone⟩⟩
    | header hdone hpos hbytes =>
      rcases header_cases hH hpos hbytes with ⟨hparse, -⟩ | ⟨hparse, hdata⟩
      · exact ⟨s, [], hpolls, .header hdone hpos hbytes, .inl (pollEstablish_nil hdone hparse)⟩
      · exact ⟨_, [], hpolls, hdata, .inr ⟨pollEstablish_of_done hdone hparse [], rfl⟩⟩
  | cons p polls ih =>
    obtain ⟨hp, htail⟩ := healthy_cons.1 hpolls
    cases h with
    | data hdone hbytes =>
      exact ⟨s, p :: polls, hpolls, .data hdone hbytes,
        .inr ⟨pollEstablish_of_responseDone hdone _, hdone⟩⟩
    | header hdone hpos hbytes =>
      rcases header_cases hH hpos hbytes with ⟨hparse, hrest⟩ | ⟨hparse, hdata⟩
      · rcases pollEstablish_cons polls hdone hparse hp hrest with hstep | ⟨k, -, hstep⟩
        · exact ⟨s, polls, htail, .header hdone hpos hbytes, .inl hstep⟩
        · rw [hstep]
          refine ih htail (.header hdone hpos ?_)
          rw [List.append_assoc, List.take_append_drop, hbytes]
      · exact ⟨_, p :: polls, hpolls, hdata, .inr ⟨pollEstablish_of_done hdone hparse _, rfl⟩⟩

/-- Driving the header to completion keeps the invariant; it never fails. -/
theorem Carries.establish (hH : parseTcpResponse H = .done true H.length)
    {wakes : List (List RecvPoll)} (hwakes : ∀ polls ∈ wakes, Healthy polls)
    (h : Carries H A out s) :
    ∃ s', Carries H A out s' ∧
      (s.establish wakes = (.pending, s') ∨ s.establish wakes = (.ready (.ok ()), s')) := by
  induction wakes generalizing s with
  | nil => exact ⟨s, h, .inl rfl⟩
  | cons polls wakes ih =>
    obtain ⟨hpolls, htail⟩ := List.forall_mem_cons.1 hwakes
    obtain ⟨s', rest, -, hs', hstep | ⟨hstep, -⟩⟩ := h.pollEstablish hH hpolls
    · simpa only [DuplexStream.establish, hstep] using ih htail hs'
    · exact ⟨s', hs', .inr (by simp only [DuplexStream.establish, hstep])⟩

/-- A read in the data phase. -/
theorem Carries.pollData {polls : List RecvPoll} (hpolls : Healthy polls) (remaining : ℕ)
    (hdone : s.responseDone = true) (h : Carries H A out s) :
    ∃ s', s.pollData remaining polls = (.pending, s') ∧ Carries H A out s' ∨
      ∃ bytes, s.pollData remaining polls = (.ready (.ok bytes), s') ∧
        Carries H A (out ++ bytes) s' ∧ bytes.length ≤ remaining ∧
          (0 < remaining → bytes = [] → out = A) := by
  cases h with
  | header hfalse => simp [hdone] at hfalse
  | data _ hbytes =>
    by_cases hleft : s.leftoverPos < s.leftover.length
    · refine ⟨_, .inr ⟨_, if_pos hleft, .data hdone ?_, ?_, ?_⟩⟩
      · rw [← hbytes, List.append_assoc, ← List.append_assoc (List.take _ _)]
        simp only [← List.drop_drop, List.take_append_drop]
      · simp
      · intro hrem hnil
        have hlen := congrArg List.length hnil
        simp only [List.length_take, List.length_drop, List.length_nil] at hlen
        omega
    · rw [List.drop_of_length_le (not_lt.1 hleft), List.nil_append] at hbytes
      cases polls with
      | nil =>
        refine ⟨s, .inl ⟨by rw [DuplexStream.pollData, if_neg hleft], .data hdone ?_⟩⟩
        rw [List.drop_of_length_le (not_lt.1 hleft), List.nil_append, hbytes]
      | cons p polls =>
        rcases s.recv.pollRead_cases remaining (healthy_cons.1 hpolls).1 with
          hread | ⟨k, hk, hpos, hread⟩
        · refine ⟨s, .inl ⟨by rw [DuplexStream.pollData, if_neg hleft, hread], .data hdone ?_⟩⟩
          rw [List.drop_of_length_le (not_lt.1 hleft), List.nil_append, hbytes]
        · refine ⟨{ s with recv := ⟨s.recv.rest.drop k⟩ }, .inr ⟨s.recv.rest.take k,
            by rw [DuplexStream.pollData, if_neg hleft, hread], .data hdone ?_,
            (List.length_take_le k _).trans hk, fun hrem hnil => ?_⟩⟩
          · change out ++ _ ++ (s.leftover.drop s.leftoverPos ++ s.recv.rest.drop k) = A
            rw [List.drop_of_length_le (not_lt.1 hleft), List.nil_append, List.append_assoc,
              List.take_append_drop, hbytes]
          · have hrest : s.recv.rest = [] :=
              (List.take_eq_nil_iff.1 hnil).resolve_left (hpos hrem).ne'
            rw [← hbytes, hrest, List.append_nil]

/-- **One read.** It waits and delivers nothing, or delivers a list of bytes that fits the buffer
and continues the application data; it never fails, and it reports the end of the stream to a buffer
with room only when nothing is left. -/
theorem Carries.pollRead (hH : parseTcpResponse H = .done true H.length)
    {polls : List RecvPoll} (hpolls : Healthy polls) (remaining : ℕ) (h : Carries H A out s) :
    ∃ s', s.pollRead remaining polls = (.pending, s') ∧ Carries H A out s' ∨
      ∃ bytes, s.pollRead remaining polls = (.ready (.ok bytes), s') ∧
        Carries H A (out ++ bytes) s' ∧ bytes.length ≤ remaining ∧
          (0 < remaining → bytes = [] → out = A) := by
  unfold DuplexStream.pollRead
  by_cases hdone : s.responseDone
  · simp only [hdone, if_true]
    exact h.pollData hpolls remaining hdone
  · simp only [hdone, Bool.false_eq_true, if_false]
    obtain ⟨s', rest, hrest, hs', hstep | ⟨hstep, hdone'⟩⟩ := h.pollEstablish hH hpolls
    · exact ⟨s', .inl ⟨by rw [hstep], hs'⟩⟩
    · rw [hstep]
      exact hs'.pollData hrest remaining hdone'

end DuplexStream

/-! ### Sequences of reads -/

/-- One call of `poll_read`: the room in the caller's buffer, and the transport's answers during
the call. -/
structure ReadCall where
  remaining : ℕ
  polls : List RecvPoll

/-- The stream as a machine that answers calls of `poll_read`. -/
def DuplexStream.read (s : DuplexStream) (c : ReadCall) :
    Poll (Except IoError Bytes) × DuplexStream :=
  s.pollRead c.remaining c.polls

/-- The bytes that one result hands to the caller. -/
def handedOver : Poll (Except IoError Bytes) → Bytes
  | .ready (.ok bytes) => bytes
  | _ => []

/-- The bytes that a sequence of results hands to the caller. -/
def delivered (results : List (Poll (Except IoError Bytes))) : Bytes := results.flatMap handedOver

theorem delivered_concat (results : List (Poll (Except IoError Bytes)))
    (r : Poll (Except IoError Bytes)) :
    delivered (results ++ [r]) = delivered results ++ handedOver r := by
  simp [delivered]

open DuplexStream in
/-- A sequence of reads keeps the invariant. -/
theorem DuplexStream.Carries.reads {H A : Bytes} {s : DuplexStream}
    (hH : parseTcpResponse H = .done true H.length) (h : Carries H A [] s) {calls : List ReadCall}
    (hcalls : ∀ c ∈ calls, Healthy c.polls) :
    Carries H A (delivered (Mealy.outputs read s calls)) (Mealy.final read s calls) := by
  induction calls using List.reverseRecOn with
  | nil => exact h
  | append_singleton calls c ih =>
    have hs := ih fun c' hc' => hcalls c' (List.mem_append_left _ hc')
    have hc : Healthy c.polls := hcalls c (by simp)
    rw [Mealy.outputs_concat, Mealy.final_concat, delivered_concat]
    obtain ⟨s', ⟨hread, hs'⟩ | ⟨bytes, hread, hs', -⟩⟩ := hs.pollRead hH hc c.remaining
    · rw [DuplexStream.read, hread]
      simpa only [handedOver, List.append_nil] using hs'
    · rw [DuplexStream.read, hread]
      exact hs'

open Mealy in
/-- What the application sees of a stream `s` whose application bytes are `A`, behind a header of
`h` bytes, in a sequence of reads. -/
structure ReadsExactly (h : ℕ) (A : Bytes) (s : DuplexStream) (calls : List ReadCall) : Prop where
  /-- The delivered bytes are a prefix of the application data. -/
  isPrefix : delivered (outputs DuplexStream.read s calls) <+: A
  /-- The rest of the application data is still held by the stream, in order. -/
  conserved : delivered (outputs DuplexStream.read s calls) ++
    (final DuplexStream.read s calls).undelivered h = A
  /-- No read fails. -/
  noError : ∀ e : IoError, Poll.ready (.error e) ∉ outputs DuplexStream.read s calls
  /-- A read delivers no more than the buffer has room for. -/
  fits : ∀ (t : ℕ) (c : ReadCall) (bytes : Bytes), calls[t]? = some c →
    (outputs DuplexStream.read s calls)[t]? = some (.ready (.ok bytes)) →
      bytes.length ≤ c.remaining
  /-- A read with room reports the end of the stream only after all of the data was delivered. -/
  atEnd : ∀ (t : ℕ) (c : ReadCall), calls[t]? = some c → 0 < c.remaining →
    (outputs DuplexStream.read s calls)[t]? = some (.ready (.ok [])) →
      delivered ((outputs DuplexStream.read s calls).take t) = A ∧
        delivered (outputs DuplexStream.read s calls) = A

open Mealy DuplexStream in
/-- The result at a position of a sequence of reads, with the bytes delivered before it. -/
theorem DuplexStream.Carries.result {H A : Bytes} {s : DuplexStream}
    (hH : parseTcpResponse H = .done true H.length) (h : Carries H A [] s) {calls : List ReadCall}
    (hcalls : ∀ c ∈ calls, Healthy c.polls) {t : ℕ} {c : ReadCall} (hc : calls[t]? = some c) :
    (outputs read s calls)[t]? = some .pending ∨
      ∃ bytes, (outputs read s calls)[t]? = some (.ready (.ok bytes)) ∧
        bytes.length ≤ c.remaining ∧
          (0 < c.remaining → bytes = [] → delivered (outputs read s (calls.take t)) = A) := by
  have hcarries : Carries H A (delivered (outputs read s (calls.take t)))
      (final read s (calls.take t)) :=
    h.reads hH fun c' hc' => hcalls c' (List.mem_of_mem_take hc')
  rw [getElem?_outputs, hc]
  obtain ⟨s', ⟨hread, -⟩ | ⟨bytes, hread, -, hle, hend⟩⟩ :=
    hcarries.pollRead hH (hcalls c (List.mem_of_getElem? hc)) c.remaining
  · exact .inl (by simp only [Option.map_some, DuplexStream.read, hread])
  · exact .inr ⟨bytes, by simp only [Option.map_some, DuplexStream.read, hread], hle, hend⟩

theorem readsExactly_of_carries {H A : Bytes} {s : DuplexStream}
    (hH : parseTcpResponse H = .done true H.length) (h : s.Carries H A []) {calls : List ReadCall}
    (hcalls : ∀ c ∈ calls, Healthy c.polls) : ReadsExactly H.length A s calls := by
  have hconserved := (h.reads hH hcalls).append_undelivered
  refine ⟨⟨_, hconserved⟩, hconserved, ?_, ?_, ?_⟩
  · intro e he
    obtain ⟨t, ht⟩ := List.getElem?_of_mem he
    have hlt : t < calls.length := by
      have := (List.getElem?_eq_some_iff.1 ht).1
      rwa [Mealy.length_outputs] at this
    rcases h.result hH hcalls (List.getElem?_eq_getElem hlt) with hr | ⟨bytes, hr, -⟩ <;>
      simp [ht] at hr
  · intro t c bytes hc hr
    rcases h.result hH hcalls hc with hr' | ⟨bytes', hr', hle, -⟩ <;> simp_all
  · intro t c hc hrem hr
    have hdone : delivered ((Mealy.outputs DuplexStream.read s calls).take t) = A := by
      rcases h.result hH hcalls hc with hr' | ⟨bytes, hr', -, hend⟩
      · simp [hr] at hr'
      · rw [hr] at hr'
        rw [Mealy.take_outputs]
        exact hend hrem (by simpa using hr'.symm)
    have hall : A <+: delivered (Mealy.outputs DuplexStream.read s calls) := by
      rw [← hdone]
      refine ⟨delivered ((Mealy.outputs DuplexStream.read s calls).drop t), ?_⟩
      rw [delivered, delivered, ← List.flatMap_append, List.take_append_drop, delivered]
    exact ⟨hdone, List.IsPrefix.eq_of_length_le ⟨_, hconserved⟩ hall.length_le⟩

/-- **The stream delivers exactly the application bytes.** If the server's bytes are a header `H`
that the parser accepts with status 0, followed by `A`, then for every chunking of them by a
transport that does not fail, with and without fast-open, `tcp_connect` does not fail, and every
sequence of reads of the stream it returns delivers a prefix of `A` and reports the end of the
stream only when all of `A` was delivered. -/
theorem tcpConnect_delivers_exactly (H A : Bytes) (hH : parseTcpResponse H = .done true H.length)
    (fastOpen : Bool) (wakes : List (List RecvPoll)) (hwakes : ∀ polls ∈ wakes, Healthy polls) :
    (∀ e, tcpConnect fastOpen ⟨H ++ A⟩ wakes ≠ .ready (.error e)) ∧
      ∀ s, tcpConnect fastOpen ⟨H ++ A⟩ wakes = .ready (.ok s) →
        ∀ calls : List ReadCall, (∀ c ∈ calls, Healthy c.polls) →
          ReadsExactly H.length A s calls := by
  have hnew := DuplexStream.carries_new H A
  cases fastOpen with
  | true =>
    refine ⟨fun e he => by simp [tcpConnect] at he, fun s hs calls hcalls => ?_⟩
    simp only [tcpConnect, Bool.not_true, Bool.false_eq_true, if_false, Poll.ready.injEq,
      Except.ok.injEq] at hs
    exact readsExactly_of_carries hH (hs ▸ hnew) hcalls
  | false =>
    obtain ⟨s', hs', hstep | hstep⟩ := hnew.establish hH hwakes
    · simp [tcpConnect, hstep]
    · refine ⟨fun e he => by simp [tcpConnect, hstep] at he, fun s hs calls hcalls => ?_⟩
      simp only [tcpConnect, Bool.not_false, if_true, hstep, Poll.ready.injEq,
        Except.ok.injEq] at hs
      exact readsExactly_of_carries hH (hs ▸ hs') hcalls

/-- A header of three bytes and two bytes of data, read without fast-open: the first read of the
transport ends inside the data. -/
theorem tcpConnect_delivers_two_bytes :
    parseTcpResponse [0, 0, 0] = .done true 3 ∧
      ∃ s, tcpConnect false ⟨[0, 0, 0, 7, 8]⟩ [[.ready 1, .pending], [.ready 3]] =
          .ready (.ok s) ∧
        ReadsExactly 3 [7, 8] s [⟨0, []⟩, ⟨9, []⟩, ⟨9, [.pending]⟩, ⟨9, [.ready 9]⟩,
          ⟨9, [.ready 9]⟩] := by
  refine ⟨by decide, _, rfl, ?_⟩
  refine (tcpConnect_delivers_exactly [0, 0, 0] [7, 8] (by decide) false
    [[.ready 1, .pending], [.ready 3]] ?_).2 _ rfl _ ?_
  · simp only [List.forall_mem_cons]
    exact ⟨healthy_of_all rfl, healthy_of_all rfl, by simp⟩
  · simp only [List.forall_mem_cons]
    exact ⟨healthy_of_all rfl, healthy_of_all rfl, healthy_of_all rfl, healthy_of_all rfl,
      healthy_of_all rfl, by simp⟩

end Rsteria.Stream
