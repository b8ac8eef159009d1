import Rsteria.Protocol.TcpRequest
import Rsteria.Stream.Bounds
import Rsteria.Stream.Refusal

/-!
# Both directions of a proxied stream

`DuplexStream` of `src/stream.rs` with its send side, which the read side of `Rsteria.Stream` leaves
out. Writes, flushes and the shutdown pass through to the QUIC stream; a `WriteError` becomes an I/O
error of kind `Other`.

The send side belongs to the QUIC library and is a parameter: the calls that the client makes, on a
state of any type, which includes whatever the connection is going to do. What the library documents
is `SendStream.Lawful`, in terms of two observations of that state: the bytes that the stream has
taken, which the server receives in order and of which it has received a prefix at any time, and
whether the stream was finished.

The application calls the stream in any order. What arrives behind the request is what the writes
reported, in order (`sent_final`), and a read returns what it would return without the other calls
(`outputs_read`).

## Main definitions

* `Stream.SendStream`, `Stream.SendStream.Lawful` : the send side of a QUIC stream.
* `Stream.Duplex`, `Stream.Duplex.Op`, `Stream.Duplex.step`.
* `Stream.Duplex.reported` : the bytes that the writes report as written.
* `Stream.ServerReads` : what the server reads of the uplink.
* `Stream.DuplexStream.Heard` : a response is accepted only after it was received.

## Main results

* `Stream.Duplex.sent_final`, `Stream.Duplex.outputs_read`, `Stream.Duplex.reported_of_shutdown`.
* `Stream.serverReads_append` : the server finds the request and what follows it.
-/

namespace Rsteria.Stream

open Protocol

/-! ### The send side of a QUIC stream -/

/-- The send side of a QUIC stream, as far as the client calls it. A `WriteError` is given by its
text. A call of `write_all` that is `pending` has not returned yet. -/
structure SendStream (σ : Type) where
  pollWrite : σ → Bytes → Poll (Except String ℕ) × σ
  writeAll : σ → Bytes → Poll (Except String Unit) × σ
  pollFlush : σ → Poll (Except IoError Unit) × σ
  pollShutdown : σ → Poll (Except IoError Unit) × σ

namespace SendStream

/-- The part of a buffer that the answer to a write reports as written. -/
def taken {ε : Type} (buf : Bytes) : Poll (Except ε ℕ) → Bytes
  | .ready (.ok n) => buf.take n
  | _ => []

/-- What the library documents of the send side: the bytes that were `sent`, and whether the stream
was `finished`. -/
structure Lawful {σ : Type} (quic : SendStream σ) (sent : σ → Bytes) (finished : σ → Prop) :
    Prop where
  /-- A write sends what it reports, from the front of the buffer, and otherwise nothing. -/
  sent_write : ∀ s buf, sent (quic.pollWrite s buf).2 = sent s ++ taken buf (quic.pollWrite s buf).1
  /-- `write_all` sends from the front of the buffer, and has sent all of it when it succeeds. -/
  sent_writeAll : ∀ s buf, ∃ done, done <+: buf ∧ sent (quic.writeAll s buf).2 = sent s ++ done ∧
    ((quic.writeAll s buf).1 = .ready (.ok ()) → done = buf)
  sent_flush : ∀ s, sent (quic.pollFlush s).2 = sent s
  sent_shutdown : ∀ s, sent (quic.pollShutdown s).2 = sent s
  /-- A shutdown that succeeds has finished the stream, and the stream remains finished. -/
  finished_shutdown : ∀ s, finished s ∨ (quic.pollShutdown s).1 = .ready (.ok ()) →
    finished (quic.pollShutdown s).2
  finished_write : ∀ s buf, finished s → finished (quic.pollWrite s buf).2
  finished_flush : ∀ s, finished s → finished (quic.pollFlush s).2
  /-- It is an error to write to a finished stream. -/
  write_finished : ∀ s buf n, finished s → (quic.pollWrite s buf).1 ≠ .ready (.ok n)

variable {σ : Type} {quic : SendStream σ} {sent : σ → Bytes} {finished : σ → Prop} {s : σ}

theorem Lawful.taken_finished (h : quic.Lawful sent finished) (hs : finished s) (buf : Bytes) :
    taken buf (quic.pollWrite s buf).1 = [] := by
  have hnot := fun n => h.write_finished s buf n hs
  rcases hwrite : (quic.pollWrite s buf).1 with (_ | n) | _
  · rfl
  · exact absurd hwrite (hnot n)
  · rfl

end SendStream

/-! ### The duplex stream -/

/-- A proxied TCP connection over a QUIC stream, with both sides. -/
structure Duplex (σ : Type) extends DuplexStream where
  send : σ

namespace Duplex

/-- A call of the stream; a read comes with the transport's answers during the call. -/
inductive Op where
  | read (c : ReadCall)
  | write (buf : Bytes)
  | flush
  | shutdown

/-- The answer to a call. -/
inductive Reply where
  | read (r : Poll (Except IoError Bytes))
  | write (r : Poll (Except IoError ℕ))
  | flush (r : Poll (Except IoError Unit))
  | shutdown (r : Poll (Except IoError Unit))

/-- `io::Error::other`, on an error that displays as the text. -/
def ioErrorOther (text : String) : IoError := ⟨.other, text⟩

/-- `map_err(io::Error::other)` on the answer to a poll. -/
def mapErrOther {α : Type} : Poll (Except String α) → Poll (Except IoError α)
  | .ready (.ok a) => .ready (.ok a)
  | .ready (.error text) => .ready (.error (ioErrorOther text))
  | .pending => .pending

section Calls

variable {σ : Type} (quic : SendStream σ)

/-- `poll_write`. -/
def pollWrite (d : Duplex σ) (buf : Bytes) : Poll (Except IoError ℕ) × Duplex σ :=
  let (result, send) := quic.pollWrite d.send buf
  (mapErrOther result, { d with send := send })

/-- `poll_flush`. -/
def pollFlush (d : Duplex σ) : Poll (Except IoError Unit) × Duplex σ :=
  let (result, send) := quic.pollFlush d.send
  (result, { d with send := send })

/-- `poll_shutdown`. -/
def pollShutdown (d : Duplex σ) : Poll (Except IoError Unit) × Duplex σ :=
  let (result, send) := quic.pollShutdown d.send
  (result, { d with send := send })

/-- The stream as a machine that answers the calls of the application. -/
def step (d : Duplex σ) : Op → Reply × Duplex σ
  | .read c =>
    let (result, rx) := d.toDuplexStream.read c
    (.read result, { d with toDuplexStream := rx })
  | .write buf =>
    let (result, d) := d.pollWrite quic buf
    (.write result, d)
  | .flush =>
    let (result, d) := d.pollFlush quic
    (.flush result, d)
  | .shutdown =>
    let (result, d) := d.pollShutdown quic
    (.shutdown result, d)

end Calls

/-- The read of a call. -/
def Op.readCall : Op → Option ReadCall
  | .read c => some c
  | _ => none

/-- The answer to a read. -/
def Reply.readResult : Reply → Option (Poll (Except IoError Bytes))
  | .read r => some r
  | _ => none

/-- The bytes that the answer to a call reports as written. -/
def Op.written : Op → Reply → Bytes
  | .write buf, .write r => SendStream.taken buf r
  | _, _ => []

/-- The bytes that the answers to a sequence of calls report as written. -/
def reported (ops : List Op) (replies : List Reply) : Bytes :=
  (List.zipWith Op.written ops replies).flatten

theorem taken_mapErrOther (buf : Bytes) (r : Poll (Except String ℕ)) :
    SendStream.taken buf (mapErrOther r) = SendStream.taken buf r := by
  rcases r with (_ | _) | _ <;> rfl

section Uplink

variable {σ : Type} {quic : SendStream σ} {sent : σ → Bytes} {finished : σ → Prop}
  (hquic : quic.Lawful sent finished)

include hquic

/-- A call sends what its answer reports. -/
theorem sent_step (d : Duplex σ) (op : Op) :
    sent (d.step quic op).2.send = sent d.send ++ op.written (d.step quic op).1 := by
  cases op with
  | read c => exact (List.append_nil _).symm
  | write buf =>
    simp only [step, pollWrite, Op.written, taken_mapErrOther]
    exact hquic.sent_write d.send buf
  | flush => exact (hquic.sent_flush d.send).trans (List.append_nil _).symm
  | shutdown => exact (hquic.sent_shutdown d.send).trans (List.append_nil _).symm

/-- On a finished stream a call reports nothing as written. -/
theorem finished_step {d : Duplex σ} (hfin : finished d.send) (op : Op) :
    finished (d.step quic op).2.send ∧ op.written (d.step quic op).1 = [] := by
  cases op with
  | read c => exact ⟨hfin, rfl⟩
  | write buf =>
    simp only [step, pollWrite, Op.written, taken_mapErrOther]
    exact ⟨hquic.finished_write d.send buf hfin, hquic.taken_finished hfin buf⟩
  | flush => exact ⟨hquic.finished_flush d.send hfin, rfl⟩
  | shutdown => exact ⟨hquic.finished_shutdown d.send (.inl hfin), rfl⟩

/-- **Nothing is lost, duplicated or reordered**: behind what was sent before stand the bytes that
the writes report, in order. -/
theorem sent_final (d : Duplex σ) (ops : List Op) :
    sent (Mealy.final (step quic) d ops).send =
      sent d.send ++ reported ops (Mealy.outputs (step quic) d ops) := by
  induction ops generalizing d with
  | nil => exact (List.append_nil _).symm
  | cons op ops ih =>
    rw [Mealy.final_cons, ih, sent_step hquic, List.append_assoc]
    rfl

/-- A finished stream takes nothing more. -/
theorem reported_of_finished {d : Duplex σ} (hfin : finished d.send) (ops : List Op) :
    reported ops (Mealy.outputs (step quic) d ops) = [] := by
  induction ops generalizing d with
  | nil => rfl
  | cons op ops ih =>
    obtain ⟨hfin', hnone⟩ := finished_step hquic hfin op
    have hrest := ih hfin'
    rw [reported] at hrest ⊢
    rw [Mealy.outputs_cons, List.zipWith_cons_cons, List.flatten_cons, hnone, hrest]
    rfl

/-- A finished stream remains finished. -/
theorem finished_final {d : Duplex σ} (hfin : finished d.send) (ops : List Op) :
    finished (Mealy.final (step quic) d ops).send :=
  Mealy.final_induction (P := fun d : Duplex σ => finished d.send) _ hfin
    fun _ op _ hfin => (finished_step hquic hfin op).1

/-- A stream is finished once a shutdown has succeeded. -/
theorem finished_of_shutdown {d : Duplex σ} {ops : List Op}
    (h : Reply.shutdown (.ready (.ok ())) ∈ Mealy.outputs (step quic) d ops) :
    finished (Mealy.final (step quic) d ops).send := by
  induction ops generalizing d with
  | nil => exact absurd h List.not_mem_nil
  | cons op ops ih =>
    rw [Mealy.outputs_cons, List.mem_cons] at h
    rw [Mealy.final_cons]
    rcases h with hhead | htail
    · refine finished_final hquic ?_ ops
      -- only a shutdown answers like that
      cases op with
      | read c => exact absurd hhead (by simp [step])
      | write buf => exact absurd hhead (by simp [step])
      | flush => exact absurd hhead (by simp [step])
      | shutdown => exact hquic.finished_shutdown d.send (.inr (Reply.shutdown.inj hhead.symm))
    · exact ih htail

/-- Once a shutdown has succeeded the calls report nothing more. -/
theorem reported_of_shutdown {d : Duplex σ} {ops : List Op} {t : ℕ}
    (h : Reply.shutdown (.ready (.ok ())) ∈ Mealy.outputs (step quic) d (ops.take t)) :
    reported ops (Mealy.outputs (step quic) d ops) =
      reported (ops.take t) (Mealy.outputs (step quic) d (ops.take t)) := by
  have hsplit := sent_final hquic d ops
  have hnone := reported_of_finished hquic (finished_of_shutdown hquic h) (ops.drop t)
  nth_rewrite 1 [← List.take_append_drop t ops] at hsplit
  rw [Mealy.final_append, sent_final hquic, hnone, sent_final hquic, List.append_nil] at hsplit
  exact (List.append_cancel_left hsplit).symm

end Uplink

section Downlink

variable {σ : Type} (quic : SendStream σ) (d : Duplex σ)

/-- The calls other than reads leave the read side as it is. -/
theorem toDuplexStream_step {op : Op} (h : op.readCall = none) :
    (d.step quic op).2.toDuplexStream = d.toDuplexStream ∧
      (d.step quic op).1.readResult = none := by
  cases op with
  | read c => exact absurd h (by simp [Op.readCall])
  | write buf => exact ⟨rfl, rfl⟩
  | flush => exact ⟨rfl, rfl⟩
  | shutdown => exact ⟨rfl, rfl⟩

/-- **Reads do not see the other calls**: their answers are those of the read side alone. -/
theorem outputs_read (ops : List Op) :
    (Mealy.outputs (step quic) d ops).filterMap Reply.readResult =
      Mealy.outputs DuplexStream.read d.toDuplexStream (ops.filterMap Op.readCall) := by
  induction ops generalizing d with
  | nil => rfl
  | cons op ops ih =>
    cases hop : op.readCall with
    | none =>
      obtain ⟨hsame, hnone⟩ := toDuplexStream_step quic d hop
      rw [List.filterMap_cons_none hop, Mealy.outputs_cons, List.filterMap_cons_none hnone, ih,
        hsame]
    | some c =>
      obtain rfl : op = .read c := by
        cases op with
        | read c' => exact congrArg Op.read (Option.some.inj hop)
        | write buf => exact absurd hop (by simp [Op.readCall])
        | flush => exact absurd hop (by simp [Op.readCall])
        | shutdown => exact absurd hop (by simp [Op.readCall])
      exact congrArg (List.cons _) (ih _)

end Downlink

end Duplex

/-! ### What the server reads -/

theorem readField_extend {b field rest : Bytes} (h : readField b = some (field, rest)) (e : Bytes) :
    readField (b ++ e) = some (field, rest ++ e) := by
  rw [readField] at h ⊢
  obtain ⟨⟨len, n⟩, hvarint, h⟩ := Option.bind_eq_some_iff.1 h
  have hn := (getVarint_bounds hvarint).2.1
  simp only [getVarint_append hvarint e, Option.bind_eq_bind, Option.bind_some] at h ⊢
  split_ifs at h with hlen
  have hdrop : (b ++ e).drop n = b.drop n ++ e := List.drop_append_of_le_length hn
  obtain ⟨rfl, rfl⟩ := Prod.mk.inj (Option.some.inj h)
  rw [hdrop, if_pos (hlen.trans (by simp)), List.take_append_of_le_length hlen,
    List.drop_append_of_le_length hlen]

/-- A request that was read is read again when more bytes follow it. -/
theorem decodeTcpRequest_extend {b : Bytes} {q : TcpRequest} (h : decodeTcpRequest b = some q)
    (e : Bytes) : decodeTcpRequest (b ++ e) = some { q with rest := q.rest ++ e } := by
  rw [decodeTcpRequest] at h ⊢
  obtain ⟨⟨frameType, n⟩, hvarint, h⟩ := Option.bind_eq_some_iff.1 h
  obtain ⟨⟨address, b₁⟩, haddress, h⟩ := Option.bind_eq_some_iff.1 h
  obtain ⟨⟨padding, b₂⟩, hpadding, h⟩ := Option.bind_eq_some_iff.1 h
  have hn := (getVarint_bounds hvarint).2.1
  simp only [getVarint_append hvarint e, Option.bind_eq_bind, Option.bind_some,
    List.drop_append_of_le_length hn, readField_extend haddress e, readField_extend hpadding e]
  rw [← Option.some.inj h]
  rfl

/-- What the server reads of the uplink `sent` at any time: no request as long as it is incomplete,
and then the request for the address, followed by a prefix of the application's bytes `app`. -/
def ServerReads (address : String) (pad app sent : Bytes) : Prop :=
  ∀ seen, seen <+: sent →
    decodeTcpRequest seen = none ∨
      ∃ t, t <+: app ∧ decodeTcpRequest seen = some ⟨0x401, utf8Bytes address, pad, t⟩

/-- A proper prefix of a request is not a request. -/
theorem serverReads_append {address : String} (h : address.utf8ByteSize < 2 ^ 62) (r : ℕ)
    (draws : ℕ → ℕ) {app sent : Bytes} (hsent : sent <+: encodeTcpRequest address r draws ++ app) :
    ServerReads address (tcpRequestPadding r draws) app sent := by
  intro seen hseen
  obtain ⟨e, he⟩ := hseen.trans hsent
  cases hread : decodeTcpRequest seen with
  | none => exact .inl rfl
  | some q =>
    -- with the missing bytes it is the request in front of all of the data
    have hall := decodeTcpRequest_extend hread e
    rw [he, decodeTcpRequest_append h] at hall
    have hq := Option.some.inj hall
    refine .inr ⟨q.rest, ⟨e, (congrArg TcpRequest.rest hq).symm⟩, congrArg some ?_⟩
    cases q with
    | mk frameType addr padding rest =>
      rw [TcpRequest.mk.injEq] at hq ⊢
      exact ⟨hq.1.symm, hq.2.1.symm, hq.2.2.1.symm, rfl⟩

/-! ### The response is received before it is accepted -/

namespace DuplexStream

/-- The bytes of the stream are `S`. Before the response is accepted, those that were received are
in `scratch`; afterwards, those that were received begin with an accepted response. -/
inductive Heard (S : Bytes) (s : DuplexStream) : Prop where
  | header (hdone : s.responseDone = false) (hbytes : s.scratch ++ s.recv.rest = S) : Heard S s
  | data (hdone : s.responseDone = true) (heard : Bytes) (hbytes : heard ++ s.recv.rest = S)
      (haccepted : BeginsWithResponse true heard) : Heard S s

variable {S : Bytes} {s : DuplexStream}

theorem Heard.pollEstablish (h : Heard S s) (polls : List RecvPoll) :
    Heard S (s.pollEstablish polls).2.1 := by
  refine pollEstablish_induction (P := fun s _ _ s' _ _ => Heard S s → Heard S s')
    ?_ ?_ ?_ s polls h
  · exact fun s polls result left _ _ h => h
  · intro s polls c hopen hparse h
    cases h with
    | data hdone => simp [hopen] at hdone
    | header _ hbytes => exact .data rfl _ hbytes (beginsWithResponse_iff.2 ⟨c, hparse⟩)
  · intro s p polls filled rest result s' left chunks hopen hparse _ _ hrest ih h
    cases h with
    | data hdone => simp [hopen] at hdone
    | header _ hbytes =>
      refine ih (.header hopen ?_)
      rw [List.append_assoc, ← hrest, hbytes]

theorem Heard.establish (h : Heard S s) (wakes : List (List RecvPoll)) :
    Heard S (s.establish wakes).2 ∧
      ((s.establish wakes).1 = .ready (.ok ()) → (s.establish wakes).2.responseDone = true) := by
  induction wakes generalizing s with
  | nil => exact ⟨h, fun heq => absurd heq (by simp [DuplexStream.establish])⟩
  | cons polls wakes ih =>
    have hnext := h.pollEstablish polls
    have hdone := responseDone_of_pollEstablish s polls
    rw [DuplexStream.establish]
    split
    · rename_i r s' left heq
      rw [heq] at hnext hdone
      exact ⟨hnext, hdone⟩
    · rename_i s' left heq
      rw [heq] at hnext
      exact ih hnext

end DuplexStream

end Rsteria.Stream
