import Mathlib.Data.List.Flatten
import Mathlib.Data.List.Forall2
import Rsteria.Lib.Pieces
import Rsteria.Poll
import Rsteria.Transport.Obfs

/-!
# Receiving through the obfuscating socket

`ObfsHopSocket::poll_recv` of `src/transport/socket.rs` with obfuscation on. The inner socket fills
one chunk of the scratch buffer for each entry of a batch; the wrapper deobfuscates every entry into
the next buffer of the caller, drops those that fail, and polls again when none is left.

By the contract of the inner socket an entry holds one wire datagram, or several of them of equal
length that the kernel coalesced, the last one possibly shorter (`Coalesced`); `stride` is that
length. The wrapper deobfuscates an entry as a whole and reports it as one datagram. So what it
delivers is one payload for each accepted entry (`received_pollRecv`), and these are payloads of
wire datagrams, whatever the contents, exactly when no accepted entry holds more than one
(`neverMerges_iff`).

Indexing out of range is `none`. Of the reused scratch state only the bytes are modelled: the
metadata in it is written by the inner socket before it is read.

## Main definitions

* `Transport.RecvMeta`, `Transport.Entry`, `Transport.InnerPoll`, `Transport.pollRecv`.
* `Transport.received` : the datagrams that QUIC cuts out of the caller's buffers.
* `Transport.accepted` : the entries of a batch that are delivered.

## Main results

* `Transport.received_pollRecv` : the payloads of the accepted entries are delivered in order.
* `Transport.neverMerges_iff` : when no datagrams are merged.
-/

namespace Rsteria.Transport

open Buffer Pieces Protocol

/-- `SCRATCH_DATAGRAM`. -/
def scratchDatagram : ℕ := 2048

/-- An IP address. -/
inductive IpAddr where
  | v4 (bits : UInt32)
  | v6 (high low : UInt64)
  deriving DecidableEq, Repr

/-- An IP address and a port. -/
structure SocketAddr where
  ip : IpAddr
  port : UInt16
  deriving DecidableEq, Repr

/-- The ECN codepoint of a datagram. -/
inductive EcnCodepoint where
  | ect0
  | ect1
  | ce
  deriving DecidableEq, Repr

/-- What is reported with a received buffer. -/
structure RecvMeta where
  addr : SocketAddr
  len : ℕ
  stride : ℕ
  ecn : Option EcnCodepoint
  dstIp : Option IpAddr
  deriving DecidableEq, Repr

/-- The lengths of the wire datagrams in one entry: any number of `stride` bytes, and a last one
that is not longer, and not empty if there are others. -/
def Coalesced (stride : ℕ) (lengths : List ℕ) : Prop :=
  ∃ j last, lengths = List.replicate j stride ++ [last] ∧ last ≤ stride ∧ (0 < j → 0 < last)

/-- One entry of a batch of the inner socket. -/
structure Entry where
  addr : SocketAddr
  ecn : Option EcnCodepoint
  dstIp : Option IpAddr
  stride : ℕ
  /-- The wire datagrams that the entry consists of. -/
  datagrams : List Bytes
  coalesced : Coalesced stride (datagrams.map List.length)
  fits : datagrams.flatten.length ≤ scratchDatagram

/-- The bytes of an entry. -/
def Entry.data (e : Entry) : Bytes := e.datagrams.flatten

/-- What the inner socket reports with an entry. -/
def Entry.recvMeta (e : Entry) : RecvMeta := ⟨e.addr, e.data.length, e.stride, e.ecn, e.dstIp⟩

/-- The answer of the inner socket to one poll. -/
inductive InnerPoll where
  | pending
  | error (e : IoError)
  | ready (batch : List Entry)

/-- The inner socket fills one chunk of the scratch buffer for each entry. -/
def fillScratch (es : List Entry) (scratch : Bytes) : Bytes :=
  writeChunks scratchDatagram 0 (es.map Entry.data) scratch

section Receive

variable (blake2b256 : Bytes → Digest) (obfs : Salamander) (canonical : Option SocketAddr)

/-- The loop over a batch, at chunk `k` with `out` buffers delivered. The address is rewritten to
the canonical one when ports are hopped. -/
def recvEntries (scratch : Bytes) : ℕ → List RecvMeta → ℕ → List Bytes → List RecvMeta →
    Option (ℕ × List Bytes × List RecvMeta)
  | _, [], out, bufs, recvMeta => some (out, bufs, recvMeta)
  | k, tmp :: tmps, out, bufs, recvMeta =>
    match slice? scratch (k * scratchDatagram) (k * scratchDatagram + tmp.len), bufs[out]? with
    | some raw, some buf =>
      let (plainLen, buf) := obfs.deobfuscate blake2b256 raw buf
      let bufs := bufs.set out buf
      if plainLen = 0 then recvEntries scratch (k + 1) tmps out bufs recvMeta
      else if out < recvMeta.length then
        let recvMeta := recvMeta.set out
          { addr := canonical.getD tmp.addr
            len := plainLen
            stride := plainLen
            ecn := tmp.ecn
            dstIp := tmp.dstIp }
        recvEntries scratch (k + 1) tmps (out + 1) bufs recvMeta
      else none
    | _, _ => none

/-- The loop of `poll_recv`: poll the inner socket until a batch has an entry to deliver. -/
def pollLoop (scratch : Bytes) (bufs : List Bytes) (recvMeta : List RecvMeta) :
    List InnerPoll → Option (Poll (Except IoError ℕ) × List Bytes × List RecvMeta)
  | [] => some (.pending, bufs, recvMeta)
  | .pending :: _ => some (.pending, bufs, recvMeta)
  | .error e :: _ => some (.ready (.error e), bufs, recvMeta)
  | .ready [] :: _ => some (.ready (.ok 0), bufs, recvMeta)
  | .ready (e :: es) :: polls =>
    let scratch := fillScratch (e :: es) scratch
    match recvEntries blake2b256 obfs canonical scratch 0 ((e :: es).map Entry.recvMeta) 0 bufs
      recvMeta with
    | none => none
    | some (out, bufs, recvMeta) =>
      if 0 < out then some (.ready (.ok out), bufs, recvMeta)
      else pollLoop scratch bufs recvMeta polls

/-- `poll_recv` with obfuscation on: the answer, and the caller's buffers and metadata. The answers
of the inner socket are those to the polls made in this call. -/
def pollRecv (scratch : Bytes) (bufs : List Bytes) (recvMeta : List RecvMeta)
    (polls : List InnerPoll) : Option (Poll (Except IoError ℕ) × List Bytes × List RecvMeta) :=
  let count := bufs.length
  let scratch := scratch ++ List.replicate (count * scratchDatagram - scratch.length) 0
  pollLoop blake2b256 obfs canonical scratch bufs recvMeta polls

end Receive

/-- The datagrams that QUIC cuts out of the buffers at the reported strides. -/
def received : Option (Poll (Except IoError ℕ) × List Bytes × List RecvMeta) → List Bytes
  | some (.ready (.ok out), bufs, recvMeta) =>
    ((bufs.zip recvMeta).take out).flatMap fun (buf, m) => pieces (buf.take m.len) m.stride
  | _ => []

/-! ### The accepted entries of a batch -/

/-- The entries that are delivered into buffers of the given lengths: each one is longer than the
salt and its payload fits the next buffer. -/
def accepted : List ℕ → List Entry → List Entry
  | _, [] => []
  | [], _ :: _ => []
  | n :: ns, e :: es =>
    if Salamander.Accepts e.data n then e :: accepted ns es else accepted (n :: ns) es

theorem accepted_sublist (ns : List ℕ) (es : List Entry) : (accepted ns es).Sublist es := by
  induction es generalizing ns with
  | nil => cases ns <;> exact List.Sublist.refl []
  | cons e es ih =>
    cases ns with
    | nil => exact List.nil_sublist _
    | cons n ns =>
      rw [accepted]
      split_ifs with haccept
      · exact (ih ns).cons_cons e
      · exact (ih (n :: ns)).cons e

theorem saltLen_lt_of_mem_accepted {ns : List ℕ} {es : List Entry} {e : Entry}
    (h : e ∈ accepted ns es) : saltLen < e.data.length := by
  induction es generalizing ns with
  | nil => cases ns <;> simp [accepted] at h
  | cons e' es ih =>
    cases ns with
    | nil => simp [accepted] at h
    | cons n ns =>
      rw [accepted] at h
      split_ifs at h with haccept
      · rcases List.mem_cons.1 h with rfl | hmem
        · exact haccept.1
        · exact ih hmem
      · exact ih h

/-! ### What is delivered -/

section Deliver

variable {blake2b256 : Bytes → Digest} {obfs : Salamander} {canonical : Option SocketAddr}

variable (blake2b256 obfs) in
/-- The first `out` buffers hold the payloads of the datagrams `acc`, each reported as one
datagram. -/
structure Filled (acc : List Bytes) (out : ℕ) (bufs : List Bytes) (recvMeta : List RecvMeta) :
    Prop where
  out_eq : out = acc.length
  contents : ((bufs.zip recvMeta).take out).map (fun p => (p.1.take p.2.len, p.2.stride)) =
    acc.map fun raw => (obfs.unmask blake2b256 raw, raw.length - saltLen)

/-- What is reported with the payload of an entry. -/
def Entry.payloadMeta (canonical : Option SocketAddr) (e : Entry) : RecvMeta :=
  ⟨canonical.getD e.addr, e.data.length - saltLen, e.data.length - saltLen, e.ecn, e.dstIp⟩

variable (blake2b256 obfs canonical) in
/-- The first `out` buffers hold the payloads of the entries `acc`, each with what is reported of
it. -/
structure Delivered (acc : List Entry) (out : ℕ) (bufs : List Bytes) (recvMeta : List RecvMeta) :
    Prop where
  out_eq : out = acc.length
  contents : ((bufs.zip recvMeta).take out).map (fun p => (p.1.take p.2.len, p.2)) =
    acc.map fun e => (obfs.unmask blake2b256 e.data, e.payloadMeta canonical)

variable (blake2b256 obfs canonical) in
theorem delivered_nil (bufs : List Bytes) (recvMeta : List RecvMeta) :
    Delivered blake2b256 obfs canonical [] 0 bufs recvMeta :=
  ⟨rfl, rfl⟩

/-- One more entry is delivered. -/
theorem Delivered.concat {acc : List Entry} {out : ℕ} {bufs : List Bytes} {recvMeta : List RecvMeta}
    (h : Delivered blake2b256 obfs canonical acc out bufs recvMeta) (hbufs : out < bufs.length)
    (hmeta : out < recvMeta.length) (e : Entry) {buf : Bytes}
    (hbuf : buf.take (e.data.length - saltLen) = obfs.unmask blake2b256 e.data) :
    Delivered blake2b256 obfs canonical (acc ++ [e]) (out + 1) (bufs.set out buf)
      (recvMeta.set out (e.payloadMeta canonical)) := by
  refine ⟨by rw [h.out_eq, List.length_append, List.length_singleton], ?_⟩
  have hzip : out < (bufs.zip recvMeta).length := by
    rw [List.length_zip]
    omega
  have hpair : (buf.take (e.payloadMeta canonical).len, e.payloadMeta canonical) =
      (obfs.unmask blake2b256 e.data, e.payloadMeta canonical) := congrArg (·, _) hbuf
  rw [zip_set, List.take_add_one, List.take_set_of_le le_rfl, List.getElem?_set_self hzip,
    List.map_append, h.contents, List.map_append]
  simp [hpair]

/-- The payloads of the entries fill the buffers. -/
theorem Delivered.filled {acc : List Entry} {out : ℕ} {bufs : List Bytes}
    {recvMeta : List RecvMeta} (h : Delivered blake2b256 obfs canonical acc out bufs recvMeta) :
    Filled blake2b256 obfs (acc.map Entry.data) out bufs recvMeta := by
  refine ⟨by rw [h.out_eq, List.length_map], ?_⟩
  have hstride := congrArg (List.map fun p : Bytes × RecvMeta => (p.1, p.2.stride)) h.contents
  rw [List.map_map, List.map_map] at hstride
  rw [List.map_map]
  exact hstride

/-- The datagrams that are cut out of filled buffers. -/
theorem Filled.received_eq {acc : List Bytes} {out : ℕ} {bufs : List Bytes}
    {recvMeta : List RecvMeta} (h : Filled blake2b256 obfs acc out bufs recvMeta)
    (hacc : ∀ raw ∈ acc, saltLen < raw.length) :
    received (some (.ready (.ok out), bufs, recvMeta)) = acc.map (obfs.unmask blake2b256) := by
  have hpieces : received (some (.ready (.ok out), bufs, recvMeta)) =
      (((bufs.zip recvMeta).take out).map (fun p => (p.1.take p.2.len, p.2.stride))).flatMap
        fun q => pieces q.1 q.2 := by
    rw [List.flatMap_map]
    rfl
  rw [hpieces, h.contents, List.flatMap_map, List.map_eq_flatMap]
  refine List.flatMap_congr fun raw hraw => ?_
  have hlen := obfs.length_unmask blake2b256 raw
  have hlong := hacc raw hraw
  have hne : obfs.unmask blake2b256 raw ≠ [] := by
    rw [← List.length_pos_iff, hlen]
    omega
  rw [← hlen]
  exact pieces_length hne

/-- A batch fits the scratch buffer. -/
theorem fillScratch_bounds {scratch : Bytes} {es : List Entry} {count : ℕ}
    (hscratch : count * scratchDatagram ≤ scratch.length) (hcount : es.length ≤ count) :
    (∀ data ∈ es.map Entry.data, data.length ≤ scratchDatagram) ∧
      (0 + (es.map Entry.data).length) * scratchDatagram ≤ scratch.length := by
  constructor
  · intro data hdata
    obtain ⟨e', -, rfl⟩ := List.mem_map.1 hdata
    exact e'.fits
  · rw [List.length_map, Nat.zero_add]
    exact (Nat.mul_le_mul_right _ hcount).trans hscratch

theorem length_fillScratch {scratch : Bytes} {es : List Entry} {count : ℕ}
    (hscratch : count * scratchDatagram ≤ scratch.length) (hcount : es.length ≤ count) :
    (fillScratch es scratch).length = scratch.length := by
  obtain ⟨hfits, hroom⟩ := fillScratch_bounds hscratch hcount
  exact length_writeChunks hfits hroom

/-- Every entry of a batch is read back from its chunk, whatever the scratch buffer held before. -/
theorem slice?_fillScratch {scratch : Bytes} {es : List Entry} {count : ℕ}
    (hscratch : count * scratchDatagram ≤ scratch.length) (hcount : es.length ≤ count) (j : ℕ)
    (e : Entry) (he : es[j]? = some e) :
    slice? (fillScratch es scratch) ((0 + j) * scratchDatagram)
      ((0 + j) * scratchDatagram + e.data.length) = some e.data := by
  obtain ⟨hfits, hroom⟩ := fillScratch_bounds hscratch hcount
  refine slice?_writeChunks hfits hroom ?_
  rw [List.getElem?_map, he, Option.map_some]

/-- The scratch buffer is large enough for all buffers of the caller. -/
theorem le_length_resize (count : ℕ) (scratch : Bytes) :
    count * scratchDatagram ≤
      (scratch ++ List.replicate (count * scratchDatagram - scratch.length) 0).length := by
  rw [List.length_append, List.length_replicate]
  omega

/-- Unmasking into the front of a buffer keeps its length. -/
theorem length_unmask_append {raw buf : Bytes} (h : Salamander.Accepts raw buf.length) :
    (obfs.unmask blake2b256 raw ++ buf.drop (raw.length - saltLen)).length = buf.length := by
  have hfits := h.2
  rw [List.length_append, Salamander.length_unmask, List.length_drop]
  omega

/-- The loop over a batch delivers the accepted entries, in order. -/
theorem recvEntries_eq {scratch : Bytes} {k : ℕ} {es acc : List Entry} {out : ℕ}
    {bufs : List Bytes} {recvMeta : List RecvMeta}
    (hscratch : ∀ (j : ℕ) (e : Entry), es[j]? = some e → slice? scratch ((k + j) * scratchDatagram)
      ((k + j) * scratchDatagram + e.data.length) = some e.data)
    (hroom : out + es.length ≤ bufs.length) (hmeta : bufs.length ≤ recvMeta.length)
    (hfill : Delivered blake2b256 obfs canonical acc out bufs recvMeta) :
    ∃ out' bufs' recvMeta',
      recvEntries blake2b256 obfs canonical scratch k (es.map Entry.recvMeta) out bufs recvMeta =
        some (out', bufs', recvMeta') ∧
      Delivered blake2b256 obfs canonical
        (acc ++ accepted ((bufs.map List.length).drop out) es) out' bufs' recvMeta' ∧
      bufs'.length = bufs.length ∧ recvMeta'.length = recvMeta.length := by
  induction es generalizing k acc out bufs recvMeta with
  | nil => exact ⟨out, bufs, recvMeta, rfl, by simpa [accepted] using hfill, rfl, rfl⟩
  | cons e es ih =>
    have hlt : out < bufs.length := by
      rw [List.length_cons] at hroom
      omega
    have hbuf : bufs[out]? = some bufs[out] := List.getElem?_eq_getElem hlt
    have hraw : slice? scratch (k * scratchDatagram) (k * scratchDatagram + e.recvMeta.len) =
        some e.data := hscratch 0 e rfl
    have hscratch' : ∀ (j : ℕ) (e : Entry), es[j]? = some e →
        slice? scratch ((k + 1 + j) * scratchDatagram)
          ((k + 1 + j) * scratchDatagram + e.data.length) = some e.data := by
      intro j e' he'
      have hnext := hscratch (j + 1) e' he'
      rwa [← Nat.add_assoc, Nat.add_right_comm] at hnext
    have hdrop : (bufs.map List.length).drop out =
        bufs[out].length :: (bufs.map List.length).drop (out + 1) := by
      rw [List.drop_eq_getElem_cons (by rwa [List.length_map]), List.getElem_map]
    rw [hdrop, accepted, List.map_cons, recvEntries]
    simp only [hraw, hbuf]
    by_cases haccept : Salamander.Accepts e.data bufs[out].length
    · have hpos : e.data.length - saltLen ≠ 0 := by
        have := haccept.1
        omega
      have hset : (bufs.set out (obfs.unmask blake2b256 e.data ++
          bufs[out].drop (e.data.length - saltLen))).map List.length = bufs.map List.length := by
        rw [List.map_set, length_unmask_append haccept, ← List.map_set, List.set_getElem_self]
      rw [Salamander.deobfuscate_eq haccept, if_pos haccept]
      simp only [hpos, if_false, hlt.trans_le hmeta, if_true]
      obtain ⟨out', bufs', recvMeta', hrun, hfill', hbufs', hmeta'⟩ := ih hscratch'
        (by rw [List.length_set, ← Nat.add_right_comm]; exact hroom)
        (by rwa [List.length_set, List.length_set])
        (hfill.concat hlt (hlt.trans_le hmeta) e
          (List.take_left' (obfs.length_unmask blake2b256 e.data)))
      refine ⟨out', bufs', recvMeta', hrun, ?_, hbufs'.trans List.length_set,
        hmeta'.trans List.length_set⟩
      rwa [hset, List.append_assoc, List.singleton_append] at hfill'
    · rw [Salamander.deobfuscate_of_not_accepts haccept, if_neg haccept]
      simp only [if_true, List.set_getElem_self]
      rw [← hdrop]
      exact ih hscratch' (by rw [List.length_cons] at hroom; omega) hmeta hfill

/-- A batch that is received into the scratch buffer delivers its accepted entries. -/
theorem recvEntries_fillScratch (blake2b256 : Bytes → Digest) (obfs : Salamander)
    (canonical : Option SocketAddr) {scratch : Bytes} {batch : List Entry} {bufs : List Bytes}
    {recvMeta : List RecvMeta} (hscratch : bufs.length * scratchDatagram ≤ scratch.length)
    (hbatch : batch.length ≤ bufs.length) (hmeta : bufs.length ≤ recvMeta.length) :
    ∃ out bufs' recvMeta',
      recvEntries blake2b256 obfs canonical (fillScratch batch scratch) 0
        (batch.map Entry.recvMeta) 0 bufs recvMeta = some (out, bufs', recvMeta') ∧
      Delivered blake2b256 obfs canonical (accepted (bufs.map List.length) batch) out bufs'
        recvMeta' ∧
      bufs'.length = bufs.length ∧ recvMeta'.length = recvMeta.length := by
  have hslices := slice?_fillScratch hscratch hbatch
  exact recvEntries_eq hslices (by rwa [Nat.zero_add]) hmeta
    (delivered_nil blake2b256 obfs canonical bufs recvMeta)

/-- **What a batch delivers.** The payloads of the accepted entries of a batch are delivered in
order, and nothing else. -/
theorem received_pollRecv (blake2b256 : Bytes → Digest) (obfs : Salamander)
    (canonical : Option SocketAddr) (scratch : Bytes) (bufs : List Bytes)
    (recvMeta : List RecvMeta) (batch : List Entry) (hbatch : batch.length ≤ bufs.length)
    (hmeta : bufs.length ≤ recvMeta.length) :
    received (pollRecv blake2b256 obfs canonical scratch bufs recvMeta [.ready batch]) =
      (accepted (bufs.map List.length) batch).map fun e => obfs.unmask blake2b256 e.data := by
  cases batch with
  | nil =>
    have haccepted : accepted (bufs.map List.length) [] = [] := by
      cases bufs.map List.length <;> rfl
    rw [haccepted]
    rfl
  | cons e es =>
    rw [pollRecv, pollLoop]
    obtain ⟨out, bufs', recvMeta', hrun, hfill, -⟩ :=
      recvEntries_fillScratch blake2b256 obfs canonical (le_length_resize _ scratch) hbatch hmeta
    have hout := hfill.out_eq
    simp only [hrun]
    split_ifs with hpos
    · rw [hfill.filled.received_eq, List.map_map]
      · rfl
      · intro raw hraw
        obtain ⟨e', he', rfl⟩ := List.mem_map.1 hraw
        exact saltLen_lt_of_mem_accepted he'
    · have hnil : accepted (bufs.map List.length) (e :: es) = [] :=
        List.length_eq_zero_iff.1 (by omega)
      rw [hnil]
      rfl

end Deliver

/-! ### When no datagrams are merged -/

/-- Two entries with the same lengths of their datagrams. -/
def SameShape (e e' : Entry) : Prop :=
  e'.stride = e.stride ∧ e'.datagrams.map List.length = e.datagrams.map List.length

theorem length_data (e : Entry) : e.data.length = (e.datagrams.map List.length).sum :=
  List.length_flatten

theorem SameShape.accepts_iff {e e' : Entry} (h : SameShape e e') (n : ℕ) :
    Salamander.Accepts e'.data n ↔ Salamander.Accepts e.data n := by
  rw [Salamander.Accepts, Salamander.Accepts, length_data, length_data, h.2]

theorem SameShape.length_datagrams {e e' : Entry} (h : SameShape e e') :
    e'.datagrams.length = e.datagrams.length := by
  rw [← List.length_map List.length, h.2, List.length_map]

/-- Which entries are accepted depends on the shape of the batch only. -/
theorem accepted_forall₂ {batch batch' : List Entry} (h : List.Forall₂ SameShape batch batch')
    (ns : List ℕ) : List.Forall₂ SameShape (accepted ns batch) (accepted ns batch') := by
  induction h generalizing ns with
  | nil => cases ns <;> exact .nil
  | cons hshape htail ih =>
    cases ns with
    | nil => exact .nil
    | cons n ns =>
      simp only [accepted, hshape.accepts_iff]
      split_ifs with haccept
      · exact .cons hshape (ih ns)
      · exact ih (n :: ns)

theorem exists_sameShape {es es' : List Entry} (h : List.Forall₂ SameShape es es') {e' : Entry}
    (he' : e' ∈ es') : ∃ e ∈ es, SameShape e e' := by
  induction h with
  | nil => simp at he'
  | cons hshape htail ih =>
    rcases List.mem_cons.1 he' with rfl | hmem
    · exact ⟨_, List.mem_cons_self, hshape⟩
    · obtain ⟨e, he, hee'⟩ := ih hmem
      exact ⟨e, List.mem_cons_of_mem _ he, hee'⟩

/-- An accepted entry stays accepted in a batch of the same shape. -/
theorem exists_split_of_mem_accepted {ns : List ℕ} {batch : List Entry} {e : Entry}
    (h : e ∈ accepted ns batch) :
    ∃ pre post, batch = pre ++ e :: post ∧ ∀ pre' e' post', List.Forall₂ SameShape pre pre' →
      SameShape e e' → e' ∈ accepted ns (pre' ++ e' :: post') := by
  induction batch generalizing ns with
  | nil => cases ns <;> simp [accepted] at h
  | cons a batch ih =>
    cases ns with
    | nil => simp [accepted] at h
    | cons n ns =>
      rw [accepted] at h
      split_ifs at h with haccept
      · rcases List.mem_cons.1 h with rfl | hmem
        · refine ⟨[], batch, rfl, fun pre' e' post' hpre hshape => ?_⟩
          obtain rfl := List.forall₂_nil_left_iff.1 hpre
          rw [List.nil_append, accepted, if_pos ((hshape.accepts_iff n).2 haccept)]
          exact List.mem_cons_self
        · obtain ⟨pre, post, rfl, hkeep⟩ := ih hmem
          refine ⟨a :: pre, post, rfl, fun pre' e' post' hpre hshape => ?_⟩
          obtain ⟨a', pre', ha, htail, rfl⟩ := List.forall₂_cons_left_iff.1 hpre
          rw [List.cons_append, accepted, if_pos ((ha.accepts_iff n).2 haccept)]
          exact List.mem_cons_of_mem a' (hkeep pre' e' post' htail hshape)
      · obtain ⟨pre, post, rfl, hkeep⟩ := ih h
        refine ⟨a :: pre, post, rfl, fun pre' e' post' hpre hshape => ?_⟩
        obtain ⟨a', pre', ha, htail, rfl⟩ := List.forall₂_cons_left_iff.1 hpre
        rw [List.cons_append, accepted, if_neg (mt (ha.accepts_iff n).1 haccept)]
        exact hkeep pre' e' post' htail hshape

/-- The entry with other contents, cut into datagrams of the same lengths. -/
def Entry.refill (e : Entry) (data : Bytes) (h : data.length = e.data.length) : Entry :=
  { e with
    datagrams := cut (e.datagrams.map List.length) data
    coalesced := by
      rw [map_length_cut (h.trans (length_data e))]
      exact e.coalesced
    fits := by
      rw [flatten_cut (h.trans (length_data e)), h]
      exact e.fits }

theorem data_refill (e : Entry) (data : Bytes) (h : data.length = e.data.length) :
    (e.refill data h).data = data :=
  flatten_cut (h.trans (length_data e))

theorem sameShape_refill (e : Entry) (data : Bytes) (h : data.length = e.data.length) :
    SameShape e (e.refill data h) :=
  ⟨rfl, map_length_cut (h.trans (length_data e))⟩

/-- The entry with all bytes zero. -/
def Entry.zeroed (e : Entry) : Entry := e.refill (List.replicate e.data.length 0) (by simp)

theorem eq_replicate_of_mem_zeroed {e : Entry} {w : Bytes} (hw : w ∈ e.zeroed.datagrams) :
    w = List.replicate w.length 0 := by
  refine List.eq_replicate_iff.2 ⟨rfl, fun b hb => ?_⟩
  have hmem : b ∈ e.zeroed.data := List.mem_flatten.2 ⟨w, hw, hb⟩
  rw [Entry.zeroed, data_refill] at hmem
  exact List.eq_of_mem_replicate hmem

theorem forall₂_map_zeroed (es : List Entry) : List.Forall₂ SameShape es (es.map Entry.zeroed) := by
  rw [List.forall₂_map_right_iff]
  exact List.forall₂_same.2 fun e _ => sameShape_refill e _ _

/-- Each of several datagrams in an entry is shorter than the entry. -/
theorem length_lt_of_mem_datagrams {e : Entry} (h : e.datagrams.length ≠ 1) {w : Bytes}
    (hw : w ∈ e.datagrams) : w.length < e.data.length := by
  obtain ⟨j, last, hlengths, hle, hpos⟩ := e.coalesced
  have hj : 0 < j := by
    have hlen := congrArg List.length hlengths
    simp only [List.length_map, List.length_append, List.length_replicate,
      List.length_singleton] at hlen
    omega
  have hstride : w.length ≤ e.stride := by
    have hmem : w.length ∈ e.datagrams.map List.length := List.mem_map_of_mem hw
    rw [hlengths, List.mem_append, List.mem_singleton] at hmem
    rcases hmem with hfull | rfl
    · exact (List.eq_of_mem_replicate hfull).le
    · exact hle
  have hmul : e.stride ≤ j * e.stride := Nat.le_mul_of_pos_left _ hj
  have hlast := hpos hj
  rw [length_data, hlengths, List.sum_append, List.sum_replicate_nat, List.sum_singleton]
  omega

section NeverMerges

variable (blake2b256 : Bytes → Digest) (obfs : Salamander) (canonical : Option SocketAddr)

/-- The payload of a wire datagram, unless it is too short to have one. -/
def payload? (w : Bytes) : Option Bytes :=
  if saltLen < w.length then some (obfs.unmask blake2b256 w) else none

/-- What is delivered for a batch are payloads of its wire datagrams, in order and each at most
once. -/
def NeverMerges (scratch : Bytes) (bufs : List Bytes) (recvMeta : List RecvMeta)
    (batch : List Entry) : Prop :=
  (received (pollRecv blake2b256 obfs canonical scratch bufs recvMeta [.ready batch])).Sublist
    ((batch.flatMap Entry.datagrams).filterMap (payload? blake2b256 obfs))

variable {blake2b256 obfs canonical}

/-- Entries of one datagram each are delivered as their payloads. -/
theorem neverMerges_of_single {scratch : Bytes} {bufs : List Bytes} {recvMeta : List RecvMeta}
    {batch : List Entry} (hbatch : batch.length ≤ bufs.length)
    (hmeta : bufs.length ≤ recvMeta.length)
    (h : ∀ e ∈ accepted (bufs.map List.length) batch, e.datagrams.length = 1) :
    NeverMerges blake2b256 obfs canonical scratch bufs recvMeta batch := by
  have hpayloads : (accepted (bufs.map List.length) batch).map
      (fun e => obfs.unmask blake2b256 e.data) =
      ((accepted (bufs.map List.length) batch).flatMap Entry.datagrams).filterMap
        (payload? blake2b256 obfs) := by
    rw [List.filterMap_flatMap, List.map_eq_flatMap]
    refine List.flatMap_congr fun e he => ?_
    obtain ⟨w, hw⟩ := List.length_eq_one_iff.1 (h e he)
    have hdata : e.data = w := by rw [Entry.data, hw, List.flatten_singleton]
    have hlong := saltLen_lt_of_mem_accepted he
    rw [hdata] at hlong ⊢
    simp [hw, payload?, hlong]
  rw [NeverMerges, received_pollRecv blake2b256 obfs canonical scratch bufs recvMeta batch hbatch
    hmeta, hpayloads]
  exact ((accepted_sublist _ batch).flatMap Entry.datagrams).filterMap _

/-- The bytes of a merged entry that are no payload of an all-zero datagram. -/
def marked (n : ℕ) : Bytes := List.replicate (n - 1) 0 ++ [1]

theorem length_marked {n : ℕ} (h : 0 < n) : (marked n).length = n := by
  rw [marked, List.length_append, List.length_replicate, List.length_singleton]
  omega

/-- The salts are the same, so that the payloads differ where the bytes do. -/
theorem unmask_marked_ne {n k : ℕ} (hn : saltLen < n) (hk : saltLen < k) :
    obfs.unmask blake2b256 (marked n) ≠ obfs.unmask blake2b256 (List.replicate k 0) := by
  intro heq
  obtain rfl : n = k := by
    have hlen := congrArg List.length heq
    rw [Salamander.length_unmask, Salamander.length_unmask, length_marked (by omega),
      List.length_replicate] at hlen
    omega
  have hsalt : (marked n).take saltLen = (List.replicate n 0).take saltLen := by
    rw [marked, List.take_append_of_le_length (by rw [List.length_replicate]; omega),
      List.take_replicate, List.take_replicate]
    congr 1
    omega
  rw [Salamander.unmask, Salamander.unmask, hsalt] at heq
  have hdrop := Salamander.mask_injective _ 0 heq
  have hmem : (1 : UInt8) ∈ (marked n).drop saltLen := by
    rw [marked, List.drop_append_of_le_length (by rw [List.length_replicate]; omega)]
    exact List.mem_append_right _ (List.mem_singleton.2 rfl)
  rw [hdrop, List.drop_replicate] at hmem
  exact absurd (List.eq_of_mem_replicate hmem) (by decide)

/-- An accepted entry of several datagrams is merged, for some contents of the batch. -/
theorem exists_not_neverMerges {scratch : Bytes} {bufs : List Bytes} {recvMeta : List RecvMeta}
    {batch : List Entry} (hbatch : batch.length ≤ bufs.length)
    (hmeta : bufs.length ≤ recvMeta.length) {e : Entry}
    (he : e ∈ accepted (bufs.map List.length) batch) (hmany : e.datagrams.length ≠ 1) :
    ∃ batch', List.Forall₂ SameShape batch batch' ∧
      ¬ NeverMerges blake2b256 obfs canonical scratch bufs recvMeta batch' := by
  have hlong := saltLen_lt_of_mem_accepted he
  obtain ⟨pre, post, rfl, hkeep⟩ := exists_split_of_mem_accepted he
  have hlen : (marked e.data.length).length = e.data.length := length_marked (by omega)
  have hshape := sameShape_refill e (marked e.data.length) hlen
  have hbatch' : List.Forall₂ SameShape (pre ++ e :: post)
      (pre.map Entry.zeroed ++ e.refill (marked e.data.length) hlen :: post.map Entry.zeroed) :=
    List.rel_append (forall₂_map_zeroed pre) (.cons hshape (forall₂_map_zeroed post))
  refine ⟨_, hbatch', fun hnever => ?_⟩
  rw [NeverMerges, received_pollRecv blake2b256 obfs canonical scratch bufs recvMeta _
    (hbatch'.length_eq ▸ hbatch) hmeta] at hnever
  have hdelivered : obfs.unmask blake2b256 (marked e.data.length) ∈
      (accepted (bufs.map List.length) (pre.map Entry.zeroed ++
        e.refill (marked e.data.length) hlen :: post.map Entry.zeroed)).map
        fun e => obfs.unmask blake2b256 e.data :=
    List.mem_map.2 ⟨_, hkeep _ _ _ (forall₂_map_zeroed pre) hshape, by rw [data_refill]⟩
  obtain ⟨w, hw, hpayload⟩ := List.mem_filterMap.1 (hnever.subset hdelivered)
  rw [payload?] at hpayload
  split_ifs at hpayload with hsalt
  have heq := (Option.some.inj hpayload).symm
  have hzero {es : List Entry} {e' : Entry} (he' : e' ∈ es.map Entry.zeroed)
      (hwe' : w ∈ e'.datagrams) : False := by
    obtain ⟨e₀, -, rfl⟩ := List.mem_map.1 he'
    rw [eq_replicate_of_mem_zeroed hwe'] at heq
    exact unmask_marked_ne hlong hsalt heq
  obtain ⟨e', he', hwe'⟩ := List.mem_flatMap.1 hw
  rcases List.mem_append.1 he' with hpre | hmid
  · exact hzero hpre hwe'
  · rcases List.mem_cons.1 hmid with rfl | hpost
    · have hlt := length_lt_of_mem_datagrams (hshape.length_datagrams ▸ hmany) hwe'
      have hlengths := congrArg List.length heq
      rw [data_refill, hlen] at hlt
      rw [Salamander.length_unmask, Salamander.length_unmask, hlen] at hlengths
      omega
    · exact hzero hpost hwe'

/-- **When no datagrams are merged.** For every content of a batch of a given shape, what is
delivered are payloads of single wire datagrams, if and only if every accepted entry of the batch
holds a single one. -/
theorem neverMerges_iff (blake2b256 : Bytes → Digest) (obfs : Salamander)
    (canonical : Option SocketAddr) (scratch : Bytes) (bufs : List Bytes)
    (recvMeta : List RecvMeta) (batch : List Entry) (hbatch : batch.length ≤ bufs.length)
    (hmeta : bufs.length ≤ recvMeta.length) :
    (∀ batch', List.Forall₂ SameShape batch batch' →
      NeverMerges blake2b256 obfs canonical scratch bufs recvMeta batch') ↔
      ∀ e ∈ accepted (bufs.map List.length) batch, e.datagrams.length = 1 := by
  constructor
  · intro h e he
    by_contra hmany
    obtain ⟨batch', hshape, hnot⟩ := exists_not_neverMerges hbatch hmeta he hmany
    exact hnot (h batch' hshape)
  · intro h batch' hshape
    refine neverMerges_of_single (hshape.length_eq ▸ hbatch) hmeta fun e' he' => ?_
    obtain ⟨e, he, hee'⟩ := exists_sameShape (accepted_forall₂ hshape (bufs.map List.length)) he'
    rw [hee'.length_datagrams]
    exact h e he

end NeverMerges

/-- An entry from the unspecified address with datagrams of nine zero bytes. -/
def Entry.zeros (j : ℕ)
    (h : (List.replicate (j + 1) (List.replicate 9 (0 : UInt8))).flatten.length ≤ scratchDatagram) :
    Entry where
  addr := ⟨.v4 0, 0⟩
  ecn := none
  dstIp := none
  stride := 9
  datagrams := List.replicate (j + 1) (List.replicate 9 0)
  coalesced := ⟨j, 9, by simp [List.replicate_succ'], le_rfl, fun _ => by decide⟩
  fits := h

/-- Two entries of one datagram each, with a digest that repeats the key and the salt. -/
theorem neverMerges_two_entries :
    NeverMerges (fun bytes i => bytes.getD i 0) ⟨[1, 2, 3, 4], by decide⟩ none []
      [List.replicate 64 0, List.replicate 64 0]
      [⟨⟨.v4 0, 0⟩, 0, 0, none, none⟩, ⟨⟨.v4 0, 0⟩, 0, 0, none, none⟩]
      [Entry.zeros 0 (by decide), Entry.zeros 0 (by decide)] := by
  refine (neverMerges_iff _ _ none [] [List.replicate 64 0, List.replicate 64 0] _
    [Entry.zeros 0 (by decide), Entry.zeros 0 (by decide)] (by decide) (by decide)).2 ?_ _
    (List.forall₂_same.2 fun e _ => ⟨rfl, rfl⟩)
  intro e he
  have hmem := (accepted_sublist _ _).subset he
  simp only [List.mem_cons, List.not_mem_nil, or_false, or_self] at hmem
  rw [hmem]
  rfl

/-- Two datagrams of nine bytes, coalesced into one entry, are delivered as one of ten bytes. -/
theorem coalesced_pair_merged :
    ¬ (∀ (blake2b256 : Bytes → Digest) (obfs : Salamander) (canonical : Option SocketAddr)
        (scratch : Bytes) (bufs : List Bytes) (recvMeta : List RecvMeta) (batch : List Entry),
        batch.length ≤ bufs.length → bufs.length ≤ recvMeta.length →
        NeverMerges blake2b256 obfs canonical scratch bufs recvMeta batch) ∧
      ∀ blake2b256 : Bytes → Digest,
        (received (pollRecv blake2b256 ⟨[1, 2, 3, 4], by decide⟩ none [] [List.replicate 64 0]
          [⟨⟨.v4 0, 0⟩, 0, 0, none, none⟩] [.ready [Entry.zeros 1 (by decide)]])).map List.length =
            [10] := by
  have haccepted : accepted [64] [Entry.zeros 1 (by decide)] = [Entry.zeros 1 (by decide)] := rfl
  have hlength (blake2b256 : Bytes → Digest) :
      (received (pollRecv blake2b256 ⟨[1, 2, 3, 4], by decide⟩ none [] [List.replicate 64 0]
        [⟨⟨.v4 0, 0⟩, 0, 0, none, none⟩] [.ready [Entry.zeros 1 (by decide)]])).map List.length =
          [10] := by
    rw [received_pollRecv _ _ _ _ _ _ _ (by decide) (by decide), List.map_singleton,
      List.length_replicate, haccepted, List.map_singleton, List.map_singleton,
      Salamander.length_unmask]
    rfl
  refine ⟨fun h => ?_, hlength⟩
  have hnever := h (fun bytes i => bytes.getD i 0) ⟨[1, 2, 3, 4], by decide⟩ none []
    [List.replicate 64 0] [⟨⟨.v4 0, 0⟩, 0, 0, none, none⟩] [Entry.zeros 1 (by decide)] (by decide)
    (by decide)
  have hsublist := hnever.map List.length
  rw [hlength] at hsublist
  have hmem := hsublist.subset (List.mem_singleton.2 rfl)
  revert hmem
  decide

end Rsteria.Transport
