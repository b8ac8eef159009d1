import Rsteria.Transport.Hop

/-!
# Compacting an obfuscated batch

`ObfsHopSocket::poll_recv` of `src/transport/socket.rs` with obfuscation on, together with all of
the state that it reuses from call to call: the scratch bytes and the metadata that the inner socket
writes. Both are grown to what the call needs and never shrunk, so that they hold remains of
earlier calls, of other sizes. The metadata is overwritten before it is read, and the call returns
what it returns without it (`RecvScratch.fst_pollRecv`).

What the call returns is said by `Answers`: batches without an entry to deliver are passed over, the
first batch with one is delivered, its accepted entries moved together at the front of the caller's
buffers, and any other answer of the inner socket is returned as it is.

## Main definitions

* `Transport.RecvScratch`, `Transport.RecvScratch.pollRecv`.
* `Transport.Answers` : what a call returns.

## Main results

* `Transport.RecvScratch.pollRecv_compacts` : what every call returns.
-/

namespace Rsteria.Transport

open Buffer Protocol

/-- `recv_scratch`: the bytes and the metadata that calls of `poll_recv` reuse. -/
structure RecvScratch where
  scratch : Bytes
  tmpMeta : List RecvMeta

/-- `RecvMeta::default`. -/
def RecvMeta.default : RecvMeta := ⟨⟨.v6 0 0, 0⟩, 0, 0, none, none⟩

namespace RecvScratch

/-- Both are large enough for `count` buffers. -/
def Holds (s : RecvScratch) (count : ℕ) : Prop :=
  count * scratchDatagram ≤ s.scratch.length ∧ count ≤ s.tmpMeta.length

instance (s : RecvScratch) (count : ℕ) : Decidable (s.Holds count) :=
  inferInstanceAs (Decidable (_ ∧ _))

/-- Grow both for `count` buffers. -/
def resize (s : RecvScratch) (count : ℕ) : RecvScratch where
  scratch := s.scratch ++ List.replicate (count * scratchDatagram - s.scratch.length) 0
  tmpMeta := s.tmpMeta ++ List.replicate (count - s.tmpMeta.length) RecvMeta.default

/-- The inner socket writes one chunk and its metadata for each entry of a batch. -/
def fill (s : RecvScratch) (batch : List Entry) : RecvScratch where
  scratch := fillScratch batch s.scratch
  tmpMeta := writeAt s.tmpMeta 0 (batch.map Entry.recvMeta)

variable (blake2b256 : Bytes → Digest) (obfs : Salamander) (canonical : Option SocketAddr)

/-- The loop over the `n` entries that the inner socket has filled, each with its `tmp_meta[k]`. -/
def recvBatch (s : RecvScratch) (n : ℕ) (bufs : List Bytes) (recvMeta : List RecvMeta) :
    Option (ℕ × List Bytes × List RecvMeta) := do
  let tmps ← slice? s.tmpMeta 0 n
  recvEntries blake2b256 obfs canonical s.scratch 0 tmps 0 bufs recvMeta

/-- The loop of `poll_recv`. The inner socket is given `count` chunks of the scratch bytes and
`count` entries of the metadata. -/
def pollLoop (count : ℕ) (s : RecvScratch) (bufs : List Bytes) (recvMeta : List RecvMeta) :
    List InnerPoll → Option (RecvAnswer × RecvScratch)
  | [] => some ((.pending, bufs, recvMeta), s)
  | poll :: polls =>
    if s.Holds count then
      match poll with
      | .pending => some ((.pending, bufs, recvMeta), s)
      | .error e => some ((.ready (.error e), bufs, recvMeta), s)
      | .ready [] => some ((.ready (.ok 0), bufs, recvMeta), s)
      | .ready (e :: es) =>
        let s := s.fill (e :: es)
        match s.recvBatch blake2b256 obfs canonical (e :: es).length bufs recvMeta with
        | none => none
        | some (out, bufs, recvMeta) =>
          if 0 < out then some ((.ready (.ok out), bufs, recvMeta), s)
          else pollLoop count s bufs recvMeta polls
    else none

/-- `poll_recv` with obfuscation on: the answer with the caller's buffers and metadata, and the
state for the next call. -/
def pollRecv (s : RecvScratch) (bufs : List Bytes) (recvMeta : List RecvMeta)
    (polls : List InnerPoll) : Option (RecvAnswer × RecvScratch) :=
  pollLoop blake2b256 obfs canonical bufs.length (s.resize bufs.length) bufs recvMeta polls

/-! ### The reused metadata is not read -/

variable {s : RecvScratch} {count : ℕ} {bufs : List Bytes} {recvMeta : List RecvMeta}
  {batch : List Entry} {polls : List InnerPoll}

theorem holds_resize (s : RecvScratch) (count : ℕ) : (s.resize count).Holds count := by
  refine ⟨le_length_resize count s.scratch, ?_⟩
  rw [resize, List.length_append, List.length_replicate]
  omega

theorem Holds.fill (hs : s.Holds count) (hbatch : batch.length ≤ count) :
    (s.fill batch).Holds count := by
  obtain ⟨hscratch, hmeta⟩ := hs
  refine ⟨?_, ?_⟩
  · rw [RecvScratch.fill, length_fillScratch hscratch hbatch]
    exact hscratch
  · rw [RecvScratch.fill, length_writeAt]
    · exact hmeta
    · rw [List.length_map]
      omega

/-- What is read of the metadata is what the inner socket has written. -/
theorem recvBatch_fill (hs : s.Holds count) (hbatch : batch.length ≤ count) :
    (s.fill batch).recvBatch blake2b256 obfs canonical batch.length bufs recvMeta =
      recvEntries blake2b256 obfs canonical (fillScratch batch s.scratch) 0
        (batch.map Entry.recvMeta) 0 bufs recvMeta := by
  have hlen := (hs.fill hbatch).2
  have hslice : slice? (s.fill batch).tmpMeta 0 batch.length =
      some (batch.map Entry.recvMeta) := by
    rw [slice?_of_le ⟨Nat.zero_le _, by omega⟩, List.drop_zero, RecvScratch.fill, writeAt,
      List.take_zero, List.nil_append]
    exact congrArg some (List.take_left' (List.length_map _))
  rw [recvBatch, hslice]
  rfl

/-- The loop returns the same without the metadata. -/
theorem fst_pollLoop (hs : s.Holds count)
    (hpolls : ∀ batch, .ready batch ∈ polls → batch.length ≤ count) :
    (pollLoop blake2b256 obfs canonical count s bufs recvMeta polls).map Prod.fst =
      Transport.pollLoop blake2b256 obfs canonical s.scratch bufs recvMeta polls := by
  induction polls generalizing s bufs recvMeta with
  | nil => rfl
  | cons poll polls ih =>
    cases poll with
    | pending => rw [pollLoop, if_pos hs]; rfl
    | error e => rw [pollLoop, if_pos hs]; rfl
    | ready batch =>
      have hbatch := hpolls batch List.mem_cons_self
      cases batch with
      | nil => rw [pollLoop, if_pos hs]; rfl
      | cons e es =>
        rw [pollLoop, if_pos hs, Transport.pollLoop]
        simp only [recvBatch_fill _ _ _ hs hbatch]
        cases recvEntries blake2b256 obfs canonical (fillScratch (e :: es) s.scratch) 0
          ((e :: es).map Entry.recvMeta) 0 bufs recvMeta with
        | none => rfl
        | some answer =>
          obtain ⟨out, bufs', recvMeta'⟩ := answer
          simp only
          split_ifs with hpos
          · rfl
          · exact ih (hs.fill hbatch) fun batch hmem =>
              hpolls batch (List.mem_cons_of_mem _ hmem)

/-- A call returns the same without the metadata. -/
theorem fst_pollRecv (s : RecvScratch) (bufs : List Bytes) (recvMeta : List RecvMeta)
    (hpolls : ∀ batch, .ready batch ∈ polls → batch.length ≤ bufs.length) :
    (s.pollRecv blake2b256 obfs canonical bufs recvMeta polls).map Prod.fst =
      Transport.pollRecv blake2b256 obfs canonical s.scratch bufs recvMeta polls :=
  fst_pollLoop blake2b256 obfs canonical (s.holds_resize bufs.length) hpolls

end RecvScratch

/-! ### What a call returns -/

/-- An entry is longer than the salt, and its payload fits the first buffer. -/
def FitsFirst (bufs : List Bytes) (e : Entry) : Prop :=
  ∃ buf rest, bufs = buf :: rest ∧ 8 < e.data.length ∧ e.data.length - 8 ≤ buf.length

section Answers

variable (blake2b256 : Bytes → Digest) (obfs : Salamander) (canonical : Option SocketAddr)
  (bufs : List Bytes) (recvMeta : List RecvMeta)

/-- What a call returns for the answers of the inner socket to its polls. -/
inductive Answers : List InnerPoll → RecvAnswer → Prop where
  | exhausted : Answers [] (.pending, bufs, recvMeta)
  | pending (polls : List InnerPoll) : Answers (.pending :: polls) (.pending, bufs, recvMeta)
  | error (e : IoError) (polls : List InnerPoll) :
    Answers (.error e :: polls) (.ready (.error e), bufs, recvMeta)
  | empty (polls : List InnerPoll) :
    Answers (.ready [] :: polls) (.ready (.ok 0), bufs, recvMeta)
  /-- A batch without an entry for the first buffer is passed over. -/
  | passed {batch : List Entry} {polls : List InnerPoll} {answer : RecvAnswer} (hne : batch ≠ [])
    (hbatch : ∀ e ∈ batch, ¬ FitsFirst bufs e) (h : Answers polls answer) :
    Answers (.ready batch :: polls) answer
  /-- The first batch with one is delivered. -/
  | delivered {batch : List Entry} {polls : List InnerPoll} {out : ℕ} {bufs' : List Bytes}
    {recvMeta' : List RecvMeta} (hbatch : ∃ e ∈ batch, FitsFirst bufs e) (hpos : 0 < out)
    (h : Delivered blake2b256 obfs canonical (accepted (bufs.map List.length) batch) out bufs'
      recvMeta') :
    Answers (.ready batch :: polls) (.ready (.ok out), bufs', recvMeta')

end Answers

section Runs

variable {bufs : List Bytes} {recvMeta : List RecvMeta} {batch : List Entry}
  {polls : List InnerPoll}

/-- Every entry is offered the first buffer until one is accepted. -/
theorem accepted_eq_nil_iff (h : batch.length ≤ bufs.length) :
    accepted (bufs.map List.length) batch = [] ↔ ∀ e ∈ batch, ¬ FitsFirst bufs e := by
  induction batch with
  | nil =>
    refine iff_of_true ?_ (by simp)
    cases bufs <;> rfl
  | cons e es ih =>
    cases bufs with
    | nil => simp at h
    | cons buf rest =>
      have hfits : FitsFirst (buf :: rest) e ↔ Salamander.Accepts e.data buf.length := by
        constructor
        · rintro ⟨buf', rest', heq, hlong, hle⟩
          rw [(List.cons.inj heq).1]
          exact ⟨hlong, hle⟩
        · intro haccepts
          exact ⟨buf, rest, rfl, haccepts.1, haccepts.2⟩
      have hrest := ih (Nat.le_of_succ_le h)
      rw [List.map_cons, accepted, List.forall_mem_cons, hfits]
      split_ifs with haccepts
      · exact iff_of_false (by simp) fun hnone => hnone.1 haccepts
      · rw [List.map_cons] at hrest
        rw [hrest]
        exact (and_iff_right haccepts).symm

/-- A batch that is passed over leaves the buffers and the metadata alone. -/
theorem recvEntries_of_not_fitsFirst (blake2b256 : Bytes → Digest) (obfs : Salamander)
    (canonical : Option SocketAddr) {scratch : Bytes} {k : ℕ}
    (hscratch : ∀ (j : ℕ) (e : Entry), batch[j]? = some e →
      slice? scratch ((k + j) * scratchDatagram)
        ((k + j) * scratchDatagram + e.data.length) = some e.data)
    (hbufs : bufs ≠ []) (hbatch : ∀ e ∈ batch, ¬ FitsFirst bufs e) :
    recvEntries blake2b256 obfs canonical scratch k (batch.map Entry.recvMeta) 0 bufs recvMeta =
      some (0, bufs, recvMeta) := by
  induction batch generalizing k with
  | nil => rfl
  | cons e es ih =>
    obtain ⟨buf, rest, rfl⟩ := List.exists_cons_of_ne_nil hbufs
    have hraw : slice? scratch (k * scratchDatagram) (k * scratchDatagram + e.recvMeta.len) =
        some e.data := hscratch 0 e rfl
    have hreject : ¬ Salamander.Accepts e.data buf.length := fun haccepts =>
      hbatch e List.mem_cons_self ⟨buf, rest, rfl, haccepts.1, haccepts.2⟩
    rw [List.map_cons, recvEntries]
    simp only [hraw, List.getElem?_cons_zero, Salamander.deobfuscate_of_not_accepts hreject,
      if_true, List.set_cons_zero]
    refine ih (fun j e' he' => ?_) fun e' he' => hbatch e' (List.mem_cons_of_mem e he')
    have hnext := hscratch (j + 1) e' he'
    rwa [← Nat.add_assoc, Nat.add_right_comm] at hnext

/-- What the loop returns. -/
theorem pollLoop_answers (blake2b256 : Bytes → Digest) (obfs : Salamander)
    (canonical : Option SocketAddr) {scratch : Bytes}
    (hscratch : bufs.length * scratchDatagram ≤ scratch.length)
    (hmeta : bufs.length ≤ recvMeta.length)
    (hpolls : ∀ batch, .ready batch ∈ polls → batch.length ≤ bufs.length) :
    ∃ answer, pollLoop blake2b256 obfs canonical scratch bufs recvMeta polls = some answer ∧
      Answers blake2b256 obfs canonical bufs recvMeta polls answer := by
  induction polls generalizing scratch with
  | nil => exact ⟨_, rfl, .exhausted⟩
  | cons poll polls ih =>
    cases poll with
    | pending => exact ⟨_, rfl, .pending polls⟩
    | error e => exact ⟨_, rfl, .error e polls⟩
    | ready batch =>
      have hbatch := hpolls batch List.mem_cons_self
      cases batch with
      | nil => exact ⟨_, rfl, .empty polls⟩
      | cons e es =>
        by_cases hnone : ∀ e' ∈ e :: es, ¬ FitsFirst bufs e'
        · have hbufs : bufs ≠ [] := List.length_pos_iff.1 (Nat.zero_lt_of_lt hbatch)
          obtain ⟨answer, hanswer, hanswers⟩ := ih
            (by rwa [length_fillScratch hscratch hbatch])
            (fun batch hmem => hpolls batch (List.mem_cons_of_mem _ hmem))
          refine ⟨answer, ?_, .passed (List.cons_ne_nil e es) hnone hanswers⟩
          rw [pollLoop]
          simp only [recvEntries_of_not_fitsFirst blake2b256 obfs canonical
            (slice?_fillScratch hscratch hbatch) hbufs hnone, Nat.lt_irrefl, if_false]
          exact hanswer
        · have hsome : ∃ e' ∈ e :: es, FitsFirst bufs e' := by
            by_contra hall
            exact hnone fun e' he' hfits => hall ⟨e', he', hfits⟩
          obtain ⟨out, bufs', recvMeta', hrun, hdelivered, -⟩ :=
            recvEntries_fillScratch blake2b256 obfs canonical hscratch hbatch hmeta
          have hpos : 0 < out := by
            rw [hdelivered.out_eq, List.length_pos_iff]
            exact fun hnil => hnone ((accepted_eq_nil_iff hbatch).1 hnil)
          refine ⟨(.ready (.ok out), bufs', recvMeta'), ?_, .delivered hsome hpos hdelivered⟩
          rw [pollLoop]
          simp only [hrun, hpos, if_true]

/-- **A batch is compacted correctly.** For all caller buffers and all answers of the inner socket,
with anything left by earlier calls in the reused state, a call does not index out of range. It
passes over the batches without an entry to deliver and delivers the accepted entries of the first
batch with one, in order, each with what is reported of it; any other answer is returned as it
is. -/
theorem RecvScratch.pollRecv_compacts (blake2b256 : Bytes → Digest) (obfs : Salamander)
    (canonical : Option SocketAddr) (s : RecvScratch) (bufs : List Bytes)
    (recvMeta : List RecvMeta) (polls : List InnerPoll) (hmeta : bufs.length ≤ recvMeta.length)
    (hpolls : ∀ batch, .ready batch ∈ polls → batch.length ≤ bufs.length) :
    ∃ answer s', s.pollRecv blake2b256 obfs canonical bufs recvMeta polls = some (answer, s') ∧
      Answers blake2b256 obfs canonical bufs recvMeta polls answer := by
  obtain ⟨answer, hanswer, hanswers⟩ := pollLoop_answers blake2b256 obfs canonical
    (le_length_resize bufs.length s.scratch) hmeta hpolls
  have hfst := s.fst_pollRecv blake2b256 obfs canonical bufs recvMeta hpolls
  rw [Transport.pollRecv, hanswer, Option.map_eq_some_iff] at hfst
  obtain ⟨⟨answer', s'⟩, hpoll, rfl⟩ := hfst
  exact ⟨answer', s', hpoll, hanswers⟩

/-- A batch whose only entry is too short, and then one that is delivered, with remains of an
earlier call in the scratch bytes. -/
theorem RecvScratch.pollRecv_compacts_second_batch :
    let obfs : Salamander := ⟨[1, 2, 3, 4], by decide⟩
    let short : Entry := ⟨⟨.v4 0, 0⟩, none, none, 3, [[1, 2, 3]],
      ⟨0, 3, rfl, le_rfl, fun _ => by decide⟩, by decide⟩
    let bufs : List Bytes := [List.replicate 64 0]
    let recvMeta : List RecvMeta := [RecvMeta.default]
    let polls : List InnerPoll := [.ready [short], .ready [Entry.zeros 0 (by decide)]]
    ∃ answer s', RecvScratch.pollRecv (fun bytes i => bytes.getD i 0) obfs none ⟨[5, 6, 7], []⟩
        bufs recvMeta polls = some (answer, s') ∧
      Answers (fun bytes i => bytes.getD i 0) obfs none bufs recvMeta polls answer := by
  intro obfs short bufs recvMeta polls
  refine RecvScratch.pollRecv_compacts _ obfs none _ bufs recvMeta polls (by decide) ?_
  intro batch hbatch
  simp only [polls, List.mem_cons, List.not_mem_nil, or_false, InnerPoll.ready.injEq] at hbatch
  rcases hbatch with rfl | rfl
  · decide
  · decide

end Runs

end Rsteria.Transport
