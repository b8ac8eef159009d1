import Mathlib.Data.Set.List
import Rsteria.Transport.Hopping

/-!
# Two obfuscating sockets

The datagrams that QUIC sends through one `ObfsHopSocket` and receives through another one with the
same key, over whole runs of both: sends, receives and hops in any order, with any answers of the
inner sockets and whatever earlier calls left in the reused buffers.

Every datagram that an obfuscating socket hands to the inner socket is a salted one, under the salt
that was drawn for it (`wire_eq`). On the other side a receive takes batches until one has something
to deliver (`consumed`), and delivers the payloads of what it took (`received_of_answers`). Together
the sockets carry the datagrams of QUIC unchanged (`tunnel_transparent`): each is one salted
datagram on the wire, and the payloads of those that arrive are given to QUIC, exactly and in the
order of their arrival. The network may lose, duplicate and reorder datagrams; it does not merge
them. QUIC puts several datagrams into one transmit only if the socket allows for more than one
segment, and an obfuscating socket does not.

## Main definitions

* `Transport.ObfsHopSocket.maxTransmitSegments`, `Transport.Transmit.datagrams`.
* `Transport.wire`, `Transport.delivered` : what a run hands to the inner socket and to QUIC.
* `Transport.consumed` : the entries that a receive takes from the inner socket.
* `Transport.Keyed`, `Transport.Unkeyed` : the socket obfuscates with a key, or not at all.
* `Transport.TunnelCarries` : what two sockets carry from one side to the other.

## Main results

* `Transport.wire_eq`, `Transport.wire_of_unkeyed`, `Transport.delivered_eq` : the datagrams of a
  run.
* `Transport.tunnel_transparent` : two sockets with the same key.
-/

namespace Rsteria.Transport

open Buffer Pieces Protocol

namespace ObfsHopSocket

/-- `max_transmit_segments`, given that of the inner socket. -/
def maxTransmitSegments (s : ObfsHopSocket) (inner : ℕ) : ℕ := if s.obfs.isSome then 1 else inner

end ObfsHopSocket

/-- The datagrams that a transmit stands for. -/
def Transmit.datagrams (t : Transmit) : List Bytes :=
  match t.segmentSize with
  | some size => pieces t.contents size
  | none => [t.contents]

/-! ### What a run sends and delivers -/

/-- What an event hands to the inner socket. -/
def handed : Option SocketOutput → List Transmit
  | some (.sent _ handed) => handed
  | _ => []

/-- What an event hands to QUIC. -/
def handedUp : Option SocketOutput → List Bytes
  | some (.received answer) => received (some answer)
  | _ => []

section Run

variable (blake2b256 : Bytes → Digest)

/-- What a run hands to the inner socket. -/
def wire (s : Option ObfsHopSocket) (es : List SocketEvent) : List Transmit :=
  (Mealy.outputs (socketStep blake2b256) s es).flatMap handed

/-- The datagrams that a run hands to QUIC. -/
def delivered (s : Option ObfsHopSocket) (es : List SocketEvent) : List Bytes :=
  (Mealy.outputs (socketStep blake2b256) s es).flatMap handedUp

end Run

/-- The datagrams that QUIC sends, each with the salt that is drawn for it. -/
def sends (es : List SocketEvent) : List (Salt × Transmit) :=
  es.filterMap fun
    | .send salt _ t => some (salt, t)
    | _ => none

/-- The entries that a receive takes: the batches up to the first one with a payload. -/
def consumed : List InnerPoll → List Entry
  | .ready [] :: _ => []
  | .ready (e :: es) :: polls =>
    if (e :: es).any fun e => saltLen < e.data.length then e :: es else e :: es ++ consumed polls
  | _ => []

/-- The wire datagrams that the receives of a run take. -/
def arrived (es : List SocketEvent) : List Bytes :=
  es.flatMap fun
    | .recv c => (consumed c.polls).map Entry.data
    | _ => []

theorem mem_of_mem_consumed {polls : List InnerPoll} {e : Entry} (he : e ∈ consumed polls) :
    ∃ batch, .ready batch ∈ polls ∧ e ∈ batch := by
  induction polls with
  | nil => exact absurd he List.not_mem_nil
  | cons poll polls ih =>
    cases poll with
    | pending => exact absurd he List.not_mem_nil
    | error e' => exact absurd he List.not_mem_nil
    | ready batch =>
      cases batch with
      | nil => exact absurd he List.not_mem_nil
      | cons e' es =>
        rw [consumed] at he
        split_ifs at he with hany
        · exact ⟨_, List.mem_cons_self, he⟩
        · rcases List.mem_append.1 he with hbatch | hrest
          · exact ⟨_, List.mem_cons_self, hbatch⟩
          · obtain ⟨batch, hmem, he⟩ := ih hrest
            exact ⟨batch, List.mem_cons_of_mem _ hmem, he⟩

theorem exists_of_mem_arrived {es : List SocketEvent} {w : Bytes} (hw : w ∈ arrived es) :
    ∃ c, .recv c ∈ es ∧ ∃ batch, .ready batch ∈ c.polls ∧ ∃ e ∈ batch, e.data = w := by
  obtain ⟨event, hevent, hw⟩ := List.mem_flatMap.1 hw
  cases event with
  | hop r => exact absurd hw List.not_mem_nil
  | send salt inner t => exact absurd hw List.not_mem_nil
  | recv c =>
    obtain ⟨e, he, rfl⟩ := List.mem_map.1 hw
    obtain ⟨batch, hbatch, he⟩ := mem_of_mem_consumed he
    exact ⟨c, hevent, batch, hbatch, e, he, rfl⟩

/-- The socket obfuscates with a key. -/
def Keyed (key : Salamander) (s : Option ObfsHopSocket) : Prop :=
  ∃ w, s = some w ∧ w.obfs = some key

variable {blake2b256 : Bytes → Digest} {key : Salamander} {s : Option ObfsHopSocket}

/-- A socket that is built with a key obfuscates with it, with and without hopping. -/
theorem keyed_new (canonical : SocketAddr) (key : Salamander) (hop : Option HopConfig) (r : ℕ) :
    Keyed key (ObfsHopSocket.new canonical (some key) hop r) := by
  rw [ObfsHopSocket.new, if_neg (by simp)]
  cases hop with
  | none => exact ⟨_, rfl, rfl⟩
  | some cfg =>
    simp only
    split_ifs with hlen
    · exact ⟨_, rfl, rfl⟩
    · exact ⟨_, rfl, rfl⟩

/-- It does so for good. -/
theorem Keyed.step (h : Keyed key s) (blake2b256 : Bytes → Digest) (e : SocketEvent) :
    Keyed key (socketStep blake2b256 s e).2 := by
  obtain ⟨w, rfl, hobfs⟩ := h
  cases e with
  | hop r => exact ⟨_, rfl, hobfs⟩
  | send salt inner t =>
    refine ⟨(w.trySend blake2b256 salt inner t).2.2, rfl, ?_⟩
    dsimp only [ObfsHopSocket.trySend]
    split
    · exact hobfs
    · split <;> exact hobfs
  | recv c => exact ⟨_, rfl, hobfs⟩

/-- What an event of an obfuscating socket hands to the inner socket. -/
theorem Keyed.handed_step (h : Keyed key s) (blake2b256 : Bytes → Digest) (e : SocketEvent) :
    (handed (socketStep blake2b256 s e).1).map (fun t => (t.contents, t.segmentSize)) =
      ((sends [e]).filter fun p => p.2.contents.length ≤ 2040).map fun p =>
        (key.salted blake2b256 p.1 p.2.contents, none) := by
  obtain ⟨w, rfl, hobfs⟩ := h
  cases e with
  | hop r => rfl
  | recv c =>
    change List.map _ (handed ((w.pollRecv blake2b256 c).map .received)) = []
    cases w.pollRecv blake2b256 c <;> rfl
  | send salt inner t =>
    change List.map _ (w.trySend blake2b256 salt inner t).2.1 =
      ([(salt, t)].filter fun p => p.2.contents.length ≤ 2040).map _
    by_cases hle : t.contents.length ≤ 2040
    · have hfits : t.contents.length + saltLen ≤ scratchDatagram := Nat.add_le_add_right hle 8
      rw [(trySend_obfs_of_le blake2b256 hobfs salt inner hfits).2,
        List.filter_cons_of_pos (by simpa using hle)]
      rfl
    · have hlarge : scratchDatagram < t.contents.length + saltLen := by
        change 2048 < t.contents.length + 8
        omega
      rw [(trySend_obfs_of_lt blake2b256 hobfs salt inner hlarge).2,
        List.filter_cons_of_neg (by simpa using hle)]
      rfl

theorem sends_cons (e : SocketEvent) (es : List SocketEvent) :
    sends (e :: es) = sends [e] ++ sends es := by
  rw [sends, ← List.singleton_append, List.filterMap_append]
  rfl

/-- **Nothing leaves in the clear**: what a run hands to the inner socket are the datagrams of QUIC
that fit, in order, each salted and as a single datagram. -/
theorem wire_eq (h : Keyed key s) (blake2b256 : Bytes → Digest) (es : List SocketEvent) :
    (wire blake2b256 s es).map (fun t => (t.contents, t.segmentSize)) =
      ((sends es).filter fun p => p.2.contents.length ≤ 2040).map fun p =>
        (key.salted blake2b256 p.1 p.2.contents, none) := by
  induction es generalizing s with
  | nil => rfl
  | cons e es ih =>
    have hrest := ih (h.step blake2b256 e)
    rw [wire] at hrest ⊢
    rw [Mealy.outputs_cons, List.flatMap_cons, List.map_append, hrest, h.handed_step,
      sends_cons e es, List.filter_append, List.map_append]

/-- The socket does not obfuscate. -/
def Unkeyed (s : Option ObfsHopSocket) : Prop := ∀ w, s = some w → w.obfs = none

/-- A socket that is built without a key does not obfuscate. -/
theorem unkeyed_new (canonical : SocketAddr) (hop : Option HopConfig) (r : ℕ) :
    Unkeyed (ObfsHopSocket.new canonical none hop r) := by
  intro w hw
  rw [ObfsHopSocket.new] at hw
  split_ifs at hw
  · cases hop with
    | none => exact Option.some.inj hw ▸ rfl
    | some cfg =>
      simp only at hw
      split_ifs at hw
      · exact Option.some.inj hw ▸ rfl
      · exact Option.some.inj hw ▸ rfl

theorem Unkeyed.step (h : Unkeyed s) (blake2b256 : Bytes → Digest) (e : SocketEvent) :
    Unkeyed (socketStep blake2b256 s e).2 ∧
      (handed (socketStep blake2b256 s e).1).map (fun t => (t.contents, t.segmentSize)) =
        (sends [e]).map fun p => (p.2.contents, p.2.segmentSize) := by
  cases s with
  | none => cases e <;> exact ⟨h, rfl⟩
  | some w =>
    have hobfs := h w rfl
    cases e with
    | hop r => exact ⟨fun w' hw' => Option.some.inj hw' ▸ hobfs, rfl⟩
    | recv c =>
      refine ⟨h, ?_⟩
      change List.map _ (handed ((w.pollRecv blake2b256 c).map .received)) = []
      cases w.pollRecv blake2b256 c <;> rfl
    | send salt inner t =>
      have hsend : w.trySend blake2b256 salt inner t = (inner, [{ t with
          destination := if w.hopIndex.isSome then w.currentDest else t.destination }], w) := by
        rw [ObfsHopSocket.trySend, hobfs]
      simp only [socketStep, hsend]
      exact ⟨h, rfl⟩

/-- A socket without a key hands on what QUIC sends. -/
theorem wire_of_unkeyed (h : Unkeyed s) (blake2b256 : Bytes → Digest) (es : List SocketEvent) :
    (wire blake2b256 s es).map (fun t => (t.contents, t.segmentSize)) =
      (sends es).map fun p => (p.2.contents, p.2.segmentSize) := by
  induction es generalizing s with
  | nil => rfl
  | cons e es ih =>
    obtain ⟨hnext, hhanded⟩ := h.step blake2b256 e
    have hrest := ih hnext
    rw [wire] at hrest ⊢
    rw [Mealy.outputs_cons, List.flatMap_cons, List.map_append, hrest, hhanded, sends_cons e es,
      List.map_append]

/-! ### What a receive delivers -/

section Receive

variable {canonical : Option SocketAddr} {bufs : List Bytes} {recvMeta : List RecvMeta} {B : ℕ}

/-- Buffers that are large enough accept every entry with a payload. -/
theorem accepted_eq_filter {batch : List Entry} (hbatch : batch.length ≤ bufs.length)
    (hbufs : ∀ buf ∈ bufs, B ≤ buf.length) (hle : ∀ e ∈ batch, e.data.length ≤ B + saltLen) :
    accepted (bufs.map List.length) batch = batch.filter fun e => saltLen < e.data.length := by
  induction batch generalizing bufs with
  | nil => cases bufs <;> rfl
  | cons e es ih =>
    obtain ⟨buf, rest, rfl⟩ := List.exists_cons_of_ne_nil
      (List.length_pos_iff.1 (Nat.zero_lt_of_lt hbatch))
    have hbuf := hbufs buf List.mem_cons_self
    have hdata := hle e List.mem_cons_self
    have htail := fun e' he' => hle e' (List.mem_cons_of_mem e he')
    rw [List.map_cons, accepted]
    by_cases hlong : saltLen < e.data.length
    · rw [if_pos ⟨hlong, by omega⟩, List.filter_cons_of_pos (by simpa using hlong),
        ih (Nat.le_of_succ_le_succ hbatch)
          (fun buf' hbuf' => hbufs buf' (List.mem_cons_of_mem buf hbuf')) htail]
    · rw [if_neg fun haccepts => hlong haccepts.1, List.filter_cons_of_neg (by simpa using hlong),
        ← ih (Nat.le_of_succ_le hbatch) hbufs htail]
      rfl

/-- A receive into buffers that are large enough delivers the payloads of the entries it takes. -/
theorem received_of_answers {polls : List InnerPoll} {answer : RecvAnswer}
    (h : Answers blake2b256 key canonical bufs recvMeta polls answer)
    (hpolls : ∀ batch, .ready batch ∈ polls → batch.length ≤ bufs.length)
    (hbufs : ∀ buf ∈ bufs, B ≤ buf.length)
    (hle : ∀ batch, .ready batch ∈ polls → ∀ e ∈ batch, e.data.length ≤ B + saltLen) :
    received (some answer) = ((consumed polls).filter fun e => saltLen < e.data.length).map
      fun e => key.unmask blake2b256 e.data := by
  induction h with
  | exhausted => rfl
  | pending polls => rfl
  | error e polls => rfl
  | empty polls => rfl
  | @passed batch polls answer hne hnone _ ih =>
    have haccepted := accepted_eq_filter (hpolls batch List.mem_cons_self) hbufs
      (hle batch List.mem_cons_self)
    have hnil := (accepted_eq_nil_iff (hpolls batch List.mem_cons_self)).2 hnone
    have hshort : (batch.any fun e => saltLen < e.data.length) = false := by
      rw [hnil] at haccepted
      simpa using List.filter_eq_nil_iff.1 haccepted.symm
    obtain ⟨e, es, rfl⟩ := List.exists_cons_of_ne_nil hne
    rw [consumed, hshort, if_neg (by simp), List.filter_append, ← haccepted, hnil, List.nil_append]
    exact ih (fun batch hmem => hpolls batch (List.mem_cons_of_mem _ hmem))
      fun batch hmem => hle batch (List.mem_cons_of_mem _ hmem)
  | @delivered batch polls out bufs' recvMeta' hsome hpos hdelivered =>
    have haccepted := accepted_eq_filter (hpolls batch List.mem_cons_self) hbufs
      (hle batch List.mem_cons_self)
    obtain ⟨e, he, hfits⟩ := hsome
    have hany : (batch.any fun e => saltLen < e.data.length) = true := by
      obtain ⟨-, -, -, hlong, -⟩ := hfits
      exact List.any_eq_true.2 ⟨e, he, decide_eq_true hlong⟩
    rw [hdelivered.filled.received_eq fun raw hraw => ?_]
    · cases batch with
      | nil => exact absurd he List.not_mem_nil
      | cons e' es => rw [consumed, hany, if_pos rfl, ← haccepted, List.map_map]; rfl
    · obtain ⟨e', he', rfl⟩ := List.mem_map.1 hraw
      exact saltLen_lt_of_mem_accepted he'

end Receive

/-- What a receive of an obfuscating socket hands to QUIC. -/
theorem Keyed.handedUp_recv (h : Keyed key s) (blake2b256 : Bytes → Digest) {c : RecvCall} {B : ℕ}
    (hbufs : ∀ buf ∈ c.bufs, B ≤ buf.length)
    (hle : ∀ batch, .ready batch ∈ c.polls → ∀ e ∈ batch, e.data.length ≤ B + saltLen) :
    handedUp (socketStep blake2b256 s (.recv c)).1 =
      ((consumed c.polls).filter fun e => saltLen < e.data.length).map
        fun e => key.unmask blake2b256 e.data := by
  obtain ⟨w, rfl, hobfs⟩ := h
  obtain ⟨answer, hanswer, hanswers⟩ := pollLoop_answers blake2b256 key
    (if w.hopIndex.isSome then some w.canonical else none)
    (le_length_resize c.bufs.length c.scratch) c.length_le c.polls_le
  have hrecv : w.pollRecv blake2b256 c = some answer := by
    rw [ObfsHopSocket.pollRecv, hobfs]
    exact hanswer
  change handedUp ((w.pollRecv blake2b256 c).map .received) = _
  rw [hrecv]
  exact received_of_answers hanswers c.polls_le hbufs hle

/-- What the receives of a run hand to QUIC: the payloads of what they take, except for datagrams
that have none. -/
theorem delivered_eq (h : Keyed key s) (blake2b256 : Bytes → Digest) {B : ℕ}
    {es : List SocketEvent} (hbufs : ∀ c, .recv c ∈ es → ∀ buf ∈ c.bufs, B ≤ buf.length)
    (hle : ∀ c, .recv c ∈ es → ∀ batch, .ready batch ∈ c.polls → ∀ e ∈ batch,
      e.data.length ≤ B + saltLen) :
    delivered blake2b256 s es = ((arrived es).filter fun w => saltLen < w.length).map
      (key.unmask blake2b256) := by
  induction es generalizing s with
  | nil => rfl
  | cons e es ih =>
    have hrest := ih (h.step blake2b256 e)
      (fun c hc => hbufs c (List.mem_cons_of_mem e hc))
      fun c hc => hle c (List.mem_cons_of_mem e hc)
    rw [delivered] at hrest ⊢
    have hsplit : arrived (e :: es) = arrived [e] ++ arrived es := by
      rw [arrived, ← List.singleton_append, List.flatMap_append]
      rfl
    rw [Mealy.outputs_cons, List.flatMap_cons, hrest, hsplit, List.filter_append, List.map_append]
    congr 1
    cases e with
    | hop r =>
      obtain ⟨w, rfl, -⟩ := h
      rfl
    | send salt inner t =>
      obtain ⟨w, rfl, -⟩ := h
      rfl
    | recv c =>
      have hsingle : arrived [.recv c] = (consumed c.polls).map Entry.data := List.append_nil _
      rw [h.handedUp_recv blake2b256 (hbufs c List.mem_cons_self) (hle c List.mem_cons_self),
        hsingle, List.filter_map, List.map_map]
      rfl

/-! ### Two sockets -/

theorem filter_sends {B : ℕ} (hB : B ≤ 2040) {es : List SocketEvent}
    (hes : ∀ p ∈ sends es, p.2.contents.length ≤ B) :
    ((sends es).filter fun p => p.2.contents.length ≤ 2040) = sends es :=
  List.filter_eq_self.2 fun p hp => decide_eq_true ((hes p hp).trans hB)

/-- The payloads of salted datagrams are what was salted, if there was something to salt. -/
theorem map_unmask_salted (blake2b256 : Bytes → Digest) (key : Salamander)
    (ps : List (Salt × Transmit)) :
    ((ps.map fun p => key.salted blake2b256 p.1 p.2.contents).filter fun w =>
        saltLen < w.length).map (key.unmask blake2b256) =
      (ps.map fun p => p.2.contents).filter fun x => x ≠ [] := by
  induction ps with
  | nil => rfl
  | cons p ps ih =>
    have hlen := key.length_salted blake2b256 p.1 p.2.contents
    rw [List.map_cons, List.map_cons]
    by_cases hnil : p.2.contents = []
    · rw [List.filter_cons_of_neg (by simp [hnil]), List.filter_cons_of_neg (by simp [hnil]),
        ih]
    · have hpos := List.length_pos_iff.2 hnil
      rw [List.filter_cons_of_pos (by simp [hlen, hpos]), List.filter_cons_of_pos (by simp [hnil]),
        List.map_cons, ih, key.unmask_salted]

/-- QUIC puts several datagrams into a transmit only for a socket with more than one segment. -/
def RespectsSegments (s : Option ObfsHopSocket) (inner : ℕ) (es : List SocketEvent) : Prop :=
  ∀ w, s = some w → ∀ p ∈ sends es, p.2.segmentSize.isSome → 1 < w.maxTransmitSegments inner

/-- The transmits to an obfuscating socket are single datagrams. -/
theorem Keyed.datagrams_eq (h : Keyed key s) {inner : ℕ} {es : List SocketEvent}
    (hes : RespectsSegments s inner es) {p : Salt × Transmit} (hp : p ∈ sends es) :
    p.2.datagrams = [p.2.contents] := by
  obtain ⟨w, rfl, hobfs⟩ := h
  have hmax : w.maxTransmitSegments inner = 1 := by
    rw [ObfsHopSocket.maxTransmitSegments, hobfs, Option.isSome_some, if_pos rfl]
  cases hsize : p.2.segmentSize with
  | none => rw [Transmit.datagrams, hsize]
  | some size =>
    have hlt := hes w rfl p hp (by rw [hsize]; rfl)
    exact absurd hlt (by omega)

/-- What two runs of sockets carry from one side to the other: the transmits of QUIC with the salts
that are drawn for them, those on the wire, the datagrams that the other side takes, and those that
QUIC is given there. -/
structure TunnelCarries (blake2b256 : Bytes → Digest) (key : Salamander)
    (sent : List (Salt × Transmit)) (onWire : List Transmit) (taken given : List Bytes) : Prop where
  /-- A transmit of QUIC is a single datagram. -/
  single : ∀ p ∈ sent, p.2.datagrams = [p.2.contents]
  /-- Each is one datagram on the wire, salted, in order, and there are no others. -/
  salted : onWire.map Transmit.datagrams =
    sent.map fun p => [key.salted blake2b256 p.1 p.2.contents]
  /-- Those that the other side takes are salted datagrams of QUIC, and QUIC is given exactly their
  payloads, in the order in which they were taken, except for empty ones. -/
  payloads : ∃ ps : List (Salt × Transmit), (∀ p ∈ ps, p ∈ sent) ∧
    taken = ps.map (fun p => key.salted blake2b256 p.1 p.2.contents) ∧
      given = (ps.map fun p => p.2.contents).filter fun x => x ≠ []

/-- Every transmit on the wire of an obfuscating socket is a single datagram, and if QUIC sends none
that is longer than `B`, they are those of QUIC, salted. -/
theorem map_datagrams_wire (h : Keyed key s) (blake2b256 : Bytes → Digest) {B : ℕ} (hB : B ≤ 2040)
    {es : List SocketEvent} (hes : ∀ p ∈ sends es, p.2.contents.length ≤ B) :
    (wire blake2b256 s es).map Transmit.datagrams =
      (sends es).map fun p => [key.salted blake2b256 p.1 p.2.contents] := by
  have hwire := congrArg (List.map fun q : Bytes × Option ℕ =>
    Transmit.datagrams ⟨⟨.v4 0, 0⟩, none, q.1, q.2, none⟩) (wire_eq h blake2b256 es)
  rw [filter_sends hB hes, List.map_map, List.map_map] at hwire
  exact hwire

/-- A list of salted datagrams is what became of a list of datagrams of QUIC. -/
theorem exists_sends_of_forall {es : List SocketEvent} {taken : List Bytes}
    (h : ∀ w ∈ taken, ∃ p ∈ sends es, key.salted blake2b256 p.1 p.2.contents = w) :
    ∃ ps : List (Salt × Transmit), (∀ p ∈ ps, p ∈ sends es) ∧
      taken = ps.map fun p => key.salted blake2b256 p.1 p.2.contents := by
  have hrange : taken ∈ Set.range (List.map fun p : {p // p ∈ sends es} =>
      key.salted blake2b256 p.1.1 p.1.2.contents) := by
    rw [Set.range_list_map]
    intro w hw
    obtain ⟨p, hp, hpw⟩ := h w hw
    exact ⟨⟨p, hp⟩, hpw⟩
  obtain ⟨ps, rfl⟩ := hrange
  refine ⟨ps.map Subtype.val, fun p hp => ?_, ?_⟩
  · obtain ⟨q, -, rfl⟩ := List.mem_map.1 hp
    exact q.2
  · rw [List.map_map]
    rfl

/-- **Two sockets with the same key are transparent**, over all runs of both, with and without
hopping, for datagrams of at most `B` bytes and buffers that hold as much, if every entry that the
receiver takes is one datagram that the sender has sent. -/
theorem tunnel_transparent (blake2b256 : Bytes → Digest) (key : Salamander)
    (canonical canonical' : SocketAddr) (hop hop' : Option HopConfig) (r r' inner B : ℕ)
    (hB : B ≤ 2040) (es es' : List SocketEvent)
    (hes : ∀ p ∈ sends es, p.2.contents.length ≤ B)
    (hsegments : RespectsSegments (ObfsHopSocket.new canonical (some key) hop r) inner es)
    (hbufs : ∀ c, .recv c ∈ es' → ∀ buf ∈ c.bufs, B ≤ buf.length)
    (hnet : ∀ c, .recv c ∈ es' → ∀ batch, .ready batch ∈ c.polls → ∀ e ∈ batch,
      ∃ w ∈ (wire blake2b256 (ObfsHopSocket.new canonical (some key) hop r) es).flatMap
        Transmit.datagrams, e.datagrams = [w]) :
    TunnelCarries blake2b256 key (sends es)
      (wire blake2b256 (ObfsHopSocket.new canonical (some key) hop r) es) (arrived es')
      (delivered blake2b256 (ObfsHopSocket.new canonical' (some key) hop' r') es') := by
  have hkeyed := keyed_new canonical key hop r
  have hwire := map_datagrams_wire hkeyed blake2b256 hB hes
  have hdata {c : RecvCall} (hc : .recv c ∈ es') {batch : List Entry}
      (hbatch : .ready batch ∈ c.polls) {e : Entry} (he : e ∈ batch) :
      ∃ p ∈ sends es, key.salted blake2b256 p.1 p.2.contents = e.data := by
    obtain ⟨w, hw, hdatagrams⟩ := hnet c hc batch hbatch e he
    rw [List.flatMap_def, hwire, ← List.flatMap_def, ← List.map_eq_flatMap] at hw
    rw [Entry.data, hdatagrams, List.flatten_singleton]
    exact List.mem_map.1 hw
  have hdelivered := delivered_eq (keyed_new canonical' key hop' r') blake2b256 hbufs
    fun c hc batch hbatch e he => by
      obtain ⟨p, hp, hpe⟩ := hdata hc hbatch he
      rw [← hpe, key.length_salted]
      exact Nat.add_le_add_right (hes p hp) saltLen
  refine ⟨fun p hp => hkeyed.datagrams_eq hsegments hp, hwire, ?_⟩
  obtain ⟨ps, hps, htaken⟩ := exists_sends_of_forall fun w hw => by
    obtain ⟨c, hc, batch, hbatch, e, he, rfl⟩ := exists_of_mem_arrived hw
    exact hdata hc hbatch he
  refine ⟨ps, hps, htaken, ?_⟩
  rw [hdelivered, htaken, map_unmask_salted]

/-- Two bytes from one socket to the other, with a digest that repeats the key and the salt. -/
theorem tunnel_transparent_two_bytes :
    let blake2b256 : Bytes → Digest := fun bytes i => bytes.getD i 0
    let key : Salamander := ⟨[1, 2, 3, 4], by decide⟩
    let salt : Salt := ⟨[9, 9, 9, 9, 9, 9, 9, 9], rfl⟩
    let addr : SocketAddr := ⟨.v4 0, 443⟩
    let w := key.salted blake2b256 salt [7, 8]
    let call : RecvCall := ⟨[[0, 0, 0]], [⟨addr, 0, 0, none, none⟩], [], .pending,
      [.ready [⟨addr, none, none, 10, [w], ⟨0, 10, rfl, le_rfl, fun _ => by decide⟩, by decide⟩]],
      le_rfl, fun _ h => absurd h (by simp), fun _ h =>
        (congrArg List.length (InnerPoll.ready.inj (List.mem_singleton.1 h))).le⟩
    delivered blake2b256 (ObfsHopSocket.new addr (some key) none 0) [.recv call] = [[7, 8]] := by
  intro blake2b256 key salt addr w call
  have hsends : ∀ p ∈ sends [.send salt (.ok ()) ⟨addr, none, [7, 8], none, none⟩],
      p.2.contents.length ≤ 2 := fun p hp => by
    rw [List.mem_singleton.1 hp]
    decide
  have hcarries := tunnel_transparent blake2b256 key addr addr none none 0 0 1 2 (by decide)
    [.send salt (.ok ()) ⟨addr, none, [7, 8], none, none⟩] [.recv call] hsends ?_ ?_ ?_
  · obtain ⟨ps, hps, htaken, hgiven⟩ := hcarries.payloads
    have hlen : ps.length = 1 := (List.length_map _).symm.trans (congrArg List.length htaken.symm)
    obtain ⟨p, rfl⟩ := List.length_eq_one_iff.1 hlen
    rw [hgiven, List.mem_singleton.1 (hps p List.mem_cons_self)]
    decide
  · intro s hs p hp hsome
    rw [List.mem_singleton.1 hp] at hsome
    exact absurd hsome Bool.false_ne_true
  · intro c hc buf hbuf
    obtain rfl : c = call := SocketEvent.recv.inj (List.mem_singleton.1 hc)
    rw [List.mem_singleton.1 hbuf]
    decide
  · intro c hc batch hbatch e he
    obtain rfl : c = call := SocketEvent.recv.inj (List.mem_singleton.1 hc)
    obtain rfl : batch = _ := InnerPoll.ready.inj (List.mem_singleton.1 hbatch)
    rw [List.flatMap_def, map_datagrams_wire (keyed_new addr key none 0) blake2b256 (by decide)
      hsends, List.mem_singleton.1 he]
    exact ⟨w, List.mem_cons_self, rfl⟩

end Rsteria.Transport
