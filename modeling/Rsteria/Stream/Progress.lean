import Rsteria.Stream

/-!
# The proxied TCP stream makes progress

`tcpConnect_delivers_exactly` says that reads deliver nothing but the application data, in order.
Here is the other half: they deliver all of it. A call is prompt if the buffer has room and the
transport has a chunk for the first poll. A prompt call never goes by for nothing: it takes bytes of
the header from the transport, or hands over application data, or reports the end of the stream. The
measure of what is left (`DuplexStream.backlog`) counts the application data twice in the header
phase, since the chunk that ends the header may hold data that later calls hand over.

So a stream whose transport keeps answering reaches the end after as many prompt calls as the header
and twice the data have bytes, and two more; and without fast-open `tcp_connect` returns after as
many wake-ups as the header has bytes, at the latest.

## Main definitions

* `Stream.prompt`, `Stream.ReadCall.prompt` : the transport has a chunk for the first poll.
* `Stream.DuplexStream.backlog` : what is left to read.

## Main results

* `Stream.DuplexStream.Carries.backlog_lt` : a prompt call lowers it or reports the end.
* `Stream.tcpConnect_drains` : all of the data is delivered.
-/

namespace Rsteria.Stream

open Protocol

/-- The transport has a chunk for the first poll. -/
def prompt : List RecvPoll → Bool
  | .ready _ :: _ => true
  | _ => false

/-- The buffer has room, and the transport has a chunk for the first poll. -/
def ReadCall.prompt (c : ReadCall) : Bool := 0 < c.remaining && Stream.prompt c.polls

namespace DuplexStream

/-- What is left to read, behind a header of `h` bytes. -/
def backlog (h : ℕ) (s : DuplexStream) : ℕ :=
  if s.responseDone then (s.undelivered h).length
  else s.recv.rest.length + (s.undelivered h).length + 1

variable {H A out : Bytes} {s s' : DuplexStream} {polls left : List RecvPoll}

/-! ### The header phase -/

/-- A turn of the loop in which the header is incomplete and the transport has a chunk. -/
theorem pollEstablish_ready (n : ℕ) (polls : List RecvPoll) (hdone : s.responseDone = false)
    (hparse : parseTcpResponse s.scratch = .needMore) (hrest : s.recv.rest ≠ []) :
    ∃ k, 0 < k ∧ s.pollEstablish (.ready n :: polls) = pollEstablish { s with
      recv := ⟨s.recv.rest.drop k⟩, scratch := s.scratch ++ s.recv.rest.take k } polls := by
  have hk : 0 < min (max n 1) 512 := by omega
  have hread : s.recv.pollRead 512 (.ready n) =
      (.ready (.ok (s.recv.rest.take (min (max n 1) 512))),
        ⟨s.recv.rest.drop (min (max n 1) 512)⟩) := rfl
  have hne : (s.recv.rest.take (min (max n 1) 512)).isEmpty = false := by
    rw [List.isEmpty_eq_false_iff, ne_eq, List.take_eq_nil_iff, not_or]
    exact ⟨hk.ne', hrest⟩
  refine ⟨_, hk, ?_⟩
  rw [DuplexStream.pollEstablish.eq_def, if_neg (by simp [hdone]), hparse]
  simp only [hread, hne, Bool.false_eq_true, if_false]

/-- A poll that ends without the header has taken a chunk, if the transport had one. -/
theorem Carries.pollEstablish_pending (hH : parseTcpResponse H = .done true H.length)
    (hpolls : Healthy polls) (h : Carries H A out s)
    (hpending : s.pollEstablish polls = (.pending, s', left)) :
    s'.responseDone = false ∧ parseTcpResponse s'.scratch = .needMore ∧
      s'.recv.rest.length + (prompt polls).toNat ≤ s.recv.rest.length := by
  induction polls generalizing s with
  | nil =>
    cases h with
    | data hdone =>
      rw [pollEstablish_of_responseDone hdone] at hpending
      exact absurd hpending (by simp)
    | header hdone hpos hbytes =>
      rcases header_cases hH hpos hbytes with ⟨hparse, -⟩ | ⟨hparse, -⟩
      · rw [pollEstablish_nil hdone hparse] at hpending
        obtain ⟨-, rfl, -⟩ := hpending
        exact ⟨hdone, hparse, Nat.le_refl _⟩
      · rw [pollEstablish_of_done hdone hparse] at hpending
        exact absurd hpending (by simp)
  | cons p polls ih =>
    obtain ⟨hp, htail⟩ := healthy_cons.1 hpolls
    cases h with
    | data hdone =>
      rw [pollEstablish_of_responseDone hdone] at hpending
      exact absurd hpending (by simp)
    | header hdone hpos hbytes =>
      rcases header_cases hH hpos hbytes with ⟨hparse, hrest⟩ | ⟨hparse, -⟩
      · cases p with
        | error e => exact absurd rfl (hp e)
        | pending =>
          rw [DuplexStream.pollEstablish.eq_def, if_neg (by simp [hdone]), hparse] at hpending
          obtain ⟨-, rfl, -⟩ := hpending
          exact ⟨hdone, hparse, Nat.le_refl _⟩
        | ready n =>
          obtain ⟨k, hk, hstep⟩ := pollEstablish_ready n polls hdone hparse hrest
          rw [hstep] at hpending
          have hnext : Carries H A [] { s with
              recv := ⟨s.recv.rest.drop k⟩, scratch := s.scratch ++ s.recv.rest.take k } := by
            refine .header hdone hpos ?_
            rw [List.append_assoc, List.take_append_drop, hbytes]
          obtain ⟨hdone', hparse', hle⟩ := ih htail hnext hpending
          refine ⟨hdone', hparse', ?_⟩
          have hpos' := List.length_pos_iff.2 hrest
          simp only [List.length_drop] at hle
          simp only [prompt, Bool.toNat_true]
          omega
      · rw [pollEstablish_of_done hdone hparse] at hpending
        exact absurd hpending (by simp)

/-! ### What is left -/

theorem Carries.length_undelivered (h : Carries H A out s) :
    out.length + (s.undelivered H.length).length = A.length := by
  rw [← List.length_append, h.append_undelivered]

theorem responseDone_pollData (remaining : ℕ) :
    (s.pollData remaining polls).2.responseDone = s.responseDone := by
  unfold DuplexStream.pollData
  split_ifs
  · rfl
  · split
    · rfl
    · rfl

/-- In the data phase a prompt call is answered. -/
theorem pollData_ne_pending (remaining : ℕ) (hprompt : prompt polls = true) (s' : DuplexStream) :
    s.pollData remaining polls ≠ (.pending, s') := by
  unfold DuplexStream.pollData
  split_ifs
  · simp
  · cases polls with
    | nil => simp [prompt] at hprompt
    | cons p polls =>
      cases p with
      | ready n => simp [RecvStream.pollRead]
      | pending => simp [prompt] at hprompt
      | error e => simp [prompt] at hprompt

/-- A call in the data phase leaves no more than was left, and less if it is prompt and not at the
end. -/
theorem Carries.backlog_pollData (hpolls : Healthy polls) (remaining : ℕ)
    (hdone : s.responseDone = true) (h : Carries H A out s) :
    (s.pollData remaining polls).2.backlog H.length ≤ s.backlog H.length ∧
      (0 < remaining → prompt polls = true → (s.pollData remaining polls).1 = .ready (.ok []) ∨
        (s.pollData remaining polls).2.backlog H.length < s.backlog H.length) := by
  have hdone' : (s.pollData remaining polls).2.responseDone = true := by
    rw [responseDone_pollData, hdone]
  rw [backlog, backlog, if_pos hdone, if_pos hdone']
  have hbefore := h.length_undelivered
  obtain ⟨s', ⟨heq, hafter⟩ | ⟨bytes, heq, hafter, -⟩⟩ := h.pollData hpolls remaining hdone
  · have hlen := hafter.length_undelivered
    rw [heq]
    exact ⟨by simp only; omega, fun _ hprompt =>
      absurd heq (pollData_ne_pending remaining hprompt s')⟩
  · have hlen := hafter.length_undelivered
    rw [List.length_append] at hlen
    rw [heq]
    refine ⟨by simp only; omega, fun _ _ => ?_⟩
    cases bytes with
    | nil => exact .inl rfl
    | cons b bytes =>
      simp only [List.length_cons] at hlen
      exact .inr (by simp only; omega)

/-- A call leaves no more than was left, and less if it is prompt and does not report the end of the
stream. -/
theorem Carries.backlog_lt (hH : parseTcpResponse H = .done true H.length) (c : ReadCall)
    (hpolls : Healthy c.polls) (h : Carries H A out s) :
    (s.read c).2.backlog H.length ≤ s.backlog H.length ∧
      (c.prompt = true → (s.read c).1 = .ready (.ok []) ∨
        (s.read c).2.backlog H.length < s.backlog H.length) := by
  rw [ReadCall.prompt, Bool.and_eq_true, decide_eq_true_eq, DuplexStream.read,
    DuplexStream.pollRead]
  by_cases hdone : s.responseDone = true
  · rw [if_pos hdone]
    obtain ⟨hle, hlt⟩ := h.backlog_pollData hpolls c.remaining hdone
    exact ⟨hle, fun hprompt => hlt hprompt.1 hprompt.2⟩
  · rw [if_neg hdone]
    have hbefore := h.length_undelivered
    obtain ⟨s', left, hleft, hs', hstep | ⟨hstep, hdone'⟩⟩ := h.pollEstablish hH hpolls
    · obtain ⟨hdone', -, hrest⟩ := h.pollEstablish_pending hH hpolls hstep
      have hafter := hs'.length_undelivered
      rw [hstep]
      simp only [backlog, hdone', hdone, Bool.false_eq_true, if_false]
      refine ⟨by omega, fun hprompt => .inr ?_⟩
      rw [hprompt.2, Bool.toNat_true] at hrest
      omega
    · -- the chunk that ends the header may hold data, but no more than was counted
      have hafter := hs'.length_undelivered
      obtain ⟨hle, -⟩ := hs'.backlog_pollData hleft c.remaining hdone'
      have hdata : s'.backlog H.length = (s'.undelivered H.length).length := if_pos hdone'
      have hheader : s.backlog H.length =
          s.recv.rest.length + (s.undelivered H.length).length + 1 := if_neg hdone
      rw [hstep]
      exact ⟨by simp only; omega, fun _ => .inr (by simp only; omega)⟩

/-! ### Driving the header -/

/-- Without the header, more than the application data is to come. -/
theorem Carries.lt_length_rest (hH : parseTcpResponse H = .done true H.length)
    (h : Carries H A out s) (hdone : s.responseDone = false)
    (hparse : parseTcpResponse s.scratch = .needMore) : A.length < s.recv.rest.length := by
  cases h with
  | data hdone' => exact absurd (hdone.symm.trans hdone') (by simp)
  | header _ hpos hbytes =>
    rcases parseTcpResponse_prefix hH ⟨s.recv.rest, hbytes⟩ with ⟨-, hlt⟩ | ⟨hdone', -⟩
    · have hlen := congrArg List.length hbytes
      simp only [List.length_append] at hlen
      omega
    · exact absurd (hparse.symm.trans hdone') (by simp)

/-- The header is complete after as many prompt wake-ups as it has bytes to come. -/
theorem Carries.establish_returns (hH : parseTcpResponse H = .done true H.length)
    {wakes : List (List RecvPoll)} (hwakes : ∀ polls ∈ wakes, Healthy polls)
    (h : Carries H A out s) (hdone : s.responseDone = false)
    (hparse : parseTcpResponse s.scratch = .needMore)
    (hcount : s.recv.rest.length ≤ A.length + wakes.countP prompt) :
    ∃ s', s.establish wakes = (.ready (.ok ()), s') := by
  induction wakes generalizing s with
  | nil =>
    have hlt := h.lt_length_rest hH hdone hparse
    simp only [List.countP_nil] at hcount
    omega
  | cons polls wakes ih =>
    obtain ⟨hpolls, htail⟩ := List.forall_mem_cons.1 hwakes
    obtain ⟨s', left, -, hs', hstep | ⟨hstep, -⟩⟩ := h.pollEstablish hH hpolls
    · obtain ⟨hdone', hparse', hrest⟩ := h.pollEstablish_pending hH hpolls hstep
      have hcount' : s'.recv.rest.length ≤ A.length + wakes.countP prompt := by
        cases hprompt : prompt polls with
        | true =>
          rw [List.countP_cons_of_pos hprompt] at hcount
          rw [hprompt, Bool.toNat_true] at hrest
          omega
        | false =>
          rw [List.countP_cons_of_neg (by simp [hprompt])] at hcount
          omega
      obtain ⟨s'', hs''⟩ := ih htail hs' hdone' hparse' hcount'
      exact ⟨s'', by simp only [DuplexStream.establish, hstep, hs'']⟩
    · exact ⟨s', by simp only [DuplexStream.establish, hstep]⟩

end DuplexStream

/-! ### The whole stream -/

open Mealy DuplexStream

variable {H A : Bytes} {s : DuplexStream}

/-- What is left of a stream that has delivered nothing. -/
theorem DuplexStream.Carries.backlog_le (h : Carries H A [] s) :
    s.backlog H.length ≤ H.length + 2 * A.length + 1 := by
  have hlen := h.length_undelivered
  simp only [List.length_nil, Nat.zero_add] at hlen
  rw [backlog, hlen]
  split_ifs with hdone
  · omega
  · cases h with
    | data hdone' => exact absurd hdone' hdone
    | header _ _ hbytes =>
      have hlen' := congrArg List.length hbytes
      simp only [List.length_append] at hlen'
      omega

/-- **All of the application data is delivered.** If the server's bytes are a header `H` that the
parser accepts with status 0, followed by `A`, then without fast-open `tcp_connect` returns after as
many prompt wake-ups as the header has bytes; and whatever the chunks and the buffers, one of as
many prompt reads as the header and twice the data have bytes, and two more, reports the end of the
stream, when all of `A` was delivered. -/
theorem tcpConnect_drains (H A : Bytes) (hH : parseTcpResponse H = .done true H.length)
    (fastOpen : Bool) (wakes : List (List RecvPoll)) (hwakes : ∀ polls ∈ wakes, Healthy polls) :
    (H.length ≤ wakes.countP prompt → ∃ s, tcpConnect fastOpen ⟨H ++ A⟩ wakes = .ready (.ok s)) ∧
      ∀ s, tcpConnect fastOpen ⟨H ++ A⟩ wakes = .ready (.ok s) →
        ∀ calls : List ReadCall, (∀ c ∈ calls, Healthy c.polls) →
          H.length + 2 * A.length + 2 ≤ calls.countP ReadCall.prompt →
          ∃ t c, calls[t]? = some c ∧ 0 < c.remaining ∧
            (outputs DuplexStream.read s calls)[t]? = some (.ready (.ok [])) ∧
            delivered (outputs DuplexStream.read s (calls.take t)) = A := by
  have hnew := carries_new H A
  have hcarries (s : DuplexStream) (hs : tcpConnect fastOpen ⟨H ++ A⟩ wakes = .ready (.ok s)) :
      Carries H A [] s := by
    cases fastOpen with
    | true =>
      simp only [tcpConnect, Bool.not_true, Bool.false_eq_true, if_false, Poll.ready.injEq,
        Except.ok.injEq] at hs
      exact hs ▸ hnew
    | false =>
      obtain ⟨s', hs', hstep | hstep⟩ := hnew.establish hH hwakes
      · simp [tcpConnect, hstep] at hs
      · simp only [tcpConnect, Bool.not_false, if_true, hstep, Poll.ready.injEq,
          Except.ok.injEq] at hs
        exact hs ▸ hs'
  refine ⟨fun hcount => ?_, fun s hs calls hcalls hcount => ?_⟩
  · cases fastOpen with
    | true => exact ⟨_, rfl⟩
    | false =>
      have hcount' : (new ⟨H ++ A⟩).recv.rest.length ≤ A.length + wakes.countP prompt := by
        simp only [new, List.length_append]
        omega
      obtain ⟨s', hs'⟩ := hnew.establish_returns hH hwakes rfl rfl hcount'
      exact ⟨s', by simp [tcpConnect, hs']⟩
  · have hstart := hcarries s hs
    have hlt : s.backlog H.length < calls.countP ReadCall.prompt := by
      have hle := hstart.backlog_le
      omega
    obtain ⟨t, c, hc, hprompt, hend⟩ := Mealy.exists_of_lt_countP DuplexStream.read
      (I := fun s => ∃ out, Carries H A out s) (φ := backlog H.length)
      (G := fun s c => (s.read c).1 = .ready (.ok [])) ⟨[], hstart⟩
      (fun s c hc hI => by
        obtain ⟨out, hs⟩ := hI
        obtain ⟨s', ⟨hread, hs'⟩ | ⟨bytes, hread, hs', -⟩⟩ :=
          hs.pollRead hH (hcalls c hc) c.remaining
        · exact ⟨out, by rw [DuplexStream.read, hread]; exact hs'⟩
        · exact ⟨out ++ bytes, by rw [DuplexStream.read, hread]; exact hs'⟩)
      (fun s c hc hI => by
        obtain ⟨out, hs⟩ := hI
        exact (hs.backlog_lt hH c (hcalls c hc)).1)
      (fun s c hc hI hprompt => by
        obtain ⟨out, hs⟩ := hI
        exact (hs.backlog_lt hH c (hcalls c hc)).2 hprompt)
      hlt
    have hroom : 0 < c.remaining := by
      rw [ReadCall.prompt, Bool.and_eq_true, decide_eq_true_eq] at hprompt
      exact hprompt.1
    have hresult : (outputs DuplexStream.read s calls)[t]? = some (.ready (.ok [])) := by
      rw [Mealy.getElem?_outputs, hc, Option.map_some, hend]
    refine ⟨t, c, hc, hroom, hresult, ?_⟩
    rcases hstart.result hH hcalls hc with hpending | ⟨bytes, hbytes, -, hall⟩
    · exact absurd (hresult.symm.trans hpending) (by simp)
    · have hnil := hbytes.symm.trans hresult
      simp only [Option.some.injEq, Poll.ready.injEq, Except.ok.injEq] at hnil
      exact hall hroom hnil

/-- A header of three bytes and one byte of data, in chunks of one byte. -/
theorem tcpConnect_drains_one_byte :
    let wakes : List (List RecvPoll) := List.replicate 3 [.ready 1]
    let calls : List ReadCall := List.replicate 7 ⟨9, [.ready 1]⟩
    parseTcpResponse [0, 0, 0] = .done true 3 ∧
      ∃ s, tcpConnect false ⟨[0, 0, 0, 7]⟩ wakes = .ready (.ok s) ∧
        ∃ t c, calls[t]? = some c ∧ 0 < c.remaining ∧
          (outputs DuplexStream.read s calls)[t]? = some (.ready (.ok [])) ∧
          delivered (outputs DuplexStream.read s (calls.take t)) = [7] := by
  intro wakes calls
  have hH : parseTcpResponse [0, 0, 0] = .done true 3 := by decide
  have hchunk : Healthy [.ready 1] := healthy_of_all rfl
  have hwakes : ∀ polls ∈ wakes, Healthy polls := by
    intro polls hpolls
    rw [List.eq_of_mem_replicate hpolls]
    exact hchunk
  have hcalls : ∀ c ∈ calls, Healthy c.polls := by
    intro c hc
    rw [List.eq_of_mem_replicate hc]
    exact hchunk
  obtain ⟨hreturns, hdrains⟩ := tcpConnect_drains [0, 0, 0] [7] hH false wakes hwakes
  obtain ⟨s, hs⟩ := hreturns (by decide)
  exact ⟨hH, s, hs, hdrains s hs calls hcalls (by decide)⟩

end Rsteria.Stream
