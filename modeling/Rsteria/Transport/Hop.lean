import Rsteria.Lib.Mealy
import Rsteria.Transport.Socket

/-!
# The obfuscating and port-hopping socket

`ObfsHopSocket` of `src/transport/socket.rs` as a whole: its construction, the choice of the
destination, both branches of `try_send` and `poll_recv`, and the task that moves the hop index. The
inner socket is given by its answers, and what is handed to it is part of the result of a send. A
value drawn from `0..n` is given as `r % n` for a number `r`. The hop index is used modulo the
number of candidates, of which there is one: that is part of the type. In a receive indexing out of
range is `none`.

The buffer that sends are obfuscated into is reused; its length is part of the type, and nothing
that earlier sends left in it reaches the wire (`trySend_transparent`). The buffer that datagrams
are received into before they are deobfuscated is reused too, and is an argument of a receive: its
contents are whatever earlier calls left in it.

The socket of an endpoint is `none` for the inner socket itself, which is used when neither
obfuscation nor hopping is asked for.

## Main definitions

* `Transport.Transmit`, `Transport.HopConfig`, `Transport.ObfsHopSocket`.
* `Transport.ObfsHopSocket.trySend`, `Transport.ObfsHopSocket.pollRecv`.
* `Transport.SocketEvent`, `Transport.socketStep` : the socket of an endpoint as a machine.

## Main results

* `Transport.trySend_transparent` : what is sent is received as the payload.
-/

namespace Rsteria.Transport

open Buffer Protocol

/-- A datagram that is handed to a socket, or several of them of `segmentSize` bytes each. -/
structure Transmit where
  destination : SocketAddr
  ecn : Option EcnCodepoint
  contents : Bytes
  segmentSize : Option ℕ
  srcIp : Option IpAddr
  deriving DecidableEq, Repr

/-- Port-hopping parameters, with the bounds of the random hop interval in milliseconds. -/
structure HopConfig where
  addrs : List SocketAddr
  intervalMin : ℕ
  intervalMax : ℕ
  deriving DecidableEq, Repr

/-- Socket wrapper applying obfuscation and port hopping. -/
structure ObfsHopSocket where
  obfs : Option Salamander
  /-- Rotating index into `hopAddrs`; `none` when port hopping is disabled. -/
  hopIndex : Option ℕ
  hopAddrs : List SocketAddr
  hopAddrs_pos : hopIndex.isSome → 0 < hopAddrs.length
  /-- The address that QUIC was told to dial. -/
  canonical : SocketAddr
  writeBuf : Bytes
  length_writeBuf : writeBuf.length = scratchDatagram

/-- One call of `poll_recv`, with the answers of the inner socket: to the only poll that is made
without obfuscation, and to those that are made with it. The caller passes at least as many metadata
entries as buffers, and the inner socket fills at most all of the buffers it is given. -/
structure RecvCall where
  bufs : List Bytes
  recvMeta : List RecvMeta
  /-- The reused scratch buffer, as earlier calls left it. -/
  scratch : Bytes
  plain : Poll (Except IoError (List (RecvMeta × Bytes)))
  polls : List InnerPoll
  length_le : bufs.length ≤ recvMeta.length
  plain_le : ∀ batch, plain = .ready (.ok batch) → batch.length ≤ bufs.length
  polls_le : ∀ batch, .ready batch ∈ polls → batch.length ≤ bufs.length

/-- What a call of `poll_recv` returns and leaves in the caller's buffers and metadata. -/
abbrev RecvAnswer := Poll (Except IoError ℕ) × List Bytes × List RecvMeta

/-- The inner socket fills the buffers and the metadata of the caller, one for each entry. -/
def fillBufs : List (RecvMeta × Bytes) → List Bytes → List RecvMeta → List Bytes × List RecvMeta
  | (m, data) :: batch, buf :: bufs, _ :: recvMeta =>
    let (bufs, recvMeta) := fillBufs batch bufs recvMeta
    ((data ++ buf.drop data.length) :: bufs, m :: recvMeta)
  | _, bufs, recvMeta => (bufs, recvMeta)

/-- `poll_recv` of the inner socket on the caller's buffers. -/
def innerPollRecv (c : RecvCall) : RecvAnswer :=
  match c.plain with
  | .ready (.ok batch) => (.ready (.ok batch.length), fillBufs batch c.bufs c.recvMeta)
  | .ready (.error e) => (.ready (.error e), c.bufs, c.recvMeta)
  | .pending => (.pending, c.bufs, c.recvMeta)

namespace ObfsHopSocket

/-- Wrap the inner socket, unless neither feature is requested. A single-port "range" needs no
rotation. -/
def new (canonical : SocketAddr) (obfs : Option Salamander) (hop : Option HopConfig) (r : ℕ) :
    Option ObfsHopSocket :=
  if obfs.isNone ∧ hop.isNone then none
  else
    let wrap (hopIndex : Option ℕ) (hopAddrs : List SocketAddr)
        (h : hopIndex.isSome → 0 < hopAddrs.length) : ObfsHopSocket :=
      { obfs := obfs
        hopIndex := hopIndex
        hopAddrs := hopAddrs
        hopAddrs_pos := h
        canonical := canonical
        writeBuf := List.replicate scratchDatagram 0
        length_writeBuf := List.length_replicate }
    match hop with
    | some cfg =>
      if h : cfg.addrs.length > 1 then
        some (wrap (some (r % cfg.addrs.length)) cfg.addrs fun _ => Nat.zero_lt_of_lt h)
      else some (wrap none cfg.addrs nofun)
    | none => some (wrap none [canonical] nofun)

variable (blake2b256 : Bytes → Digest) (s : ObfsHopSocket)

/-- The destination to send to right now (rotates when hopping). -/
def currentDest : SocketAddr :=
  match h : s.hopIndex with
  | some idx =>
    s.hopAddrs.get ⟨idx % s.hopAddrs.length, Nat.mod_lt idx (s.hopAddrs_pos (h ▸ rfl))⟩
  | none => s.canonical

/-- A turn of the loop of `spawn_hop_task`, which runs only when ports are hopped. -/
def hop (r : ℕ) : ObfsHopSocket :=
  { s with
    hopIndex := s.hopIndex.map fun _ => r % s.hopAddrs.length
    hopAddrs_pos := fun h => s.hopAddrs_pos (Option.isSome_map ▸ h) }

/-- `try_send`, with the salt that is drawn and the answer of the inner socket: the result, what was
handed to the inner socket, and the socket afterwards. -/
def trySend (salt : Salt) (inner : Except IoError Unit) (t : Transmit) :
    Except IoError Unit × List Transmit × ObfsHopSocket :=
  let dest := if s.hopIndex.isSome then s.currentDest else t.destination
  match s.obfs with
  | none =>
    let t := { t with destination := dest }
    (inner, [t], s)
  | some obfs =>
    let buf := obfs.obfuscate blake2b256 salt t.contents s.writeBuf
    let s := { s with
      writeBuf := buf.2
      length_writeBuf :=
        (Salamander.length_obfuscate salt t.contents s.writeBuf).trans s.length_writeBuf }
    let n := buf.1
    if n = 0 then (.ok (), [], s)
    else
      let t := { t with destination := dest, contents := buf.2.take n, segmentSize := none }
      (inner, [t], s)

/-- `poll_recv`. -/
def pollRecv (c : RecvCall) : Option RecvAnswer :=
  let rewriteAddr := s.hopIndex.isSome
  match s.obfs with
  | none =>
    match innerPollRecv c with
    | (.ready (.ok n), bufs, recvMeta) =>
      let recvMeta :=
        if rewriteAddr then
          (recvMeta.take n).map (fun m => { m with addr := s.canonical }) ++ recvMeta.drop n
        else recvMeta
      some (.ready (.ok n), bufs, recvMeta)
    | other => some other
  | some obfs =>
    Transport.pollRecv blake2b256 obfs (if rewriteAddr then some s.canonical else none) c.scratch
      c.bufs c.recvMeta c.polls

end ObfsHopSocket

/-- What happens to the socket of an endpoint. -/
inductive SocketEvent where
  /-- The hop task moves the index. -/
  | hop (r : ℕ)
  /-- A datagram is sent, with the salt that is drawn and the answer of the inner socket. -/
  | send (salt : Salt) (inner : Except IoError Unit) (t : Transmit)
  /-- Datagrams are received. -/
  | recv (c : RecvCall)

/-- What comes of an event. -/
inductive SocketOutput where
  | hopped
  | sent (result : Except IoError Unit) (handed : List Transmit)
  | received (answer : RecvAnswer)

/-- One event at the socket of an endpoint; the output is `none` if an index is out of range. -/
def socketStep (blake2b256 : Bytes → Digest) :
    Option ObfsHopSocket → SocketEvent → Option SocketOutput × Option ObfsHopSocket
  | none, .hop _ => (some .hopped, none)
  | none, .send _ inner t => (some (.sent inner [t]), none)
  | none, .recv c => (some (.received (innerPollRecv c)), none)
  | some s, .hop r => (some .hopped, some (s.hop r))
  | some s, .send salt inner t =>
    let (result, handed, s) := s.trySend blake2b256 salt inner t
    (some (.sent result handed), some s)
  | some s, .recv c => ((s.pollRecv blake2b256 c).map .received, some s)

/-! ### Sending through the obfuscation -/

section Send

variable {obfs : Salamander} {s : ObfsHopSocket}

/-- What a send with obfuscation hands to the inner socket: the salted datagram, whatever the write
buffer held. -/
theorem trySend_obfs_of_le (blake2b256 : Bytes → Digest) (hobfs : s.obfs = some obfs) (salt : Salt)
    (inner : Except IoError Unit) {t : Transmit}
    (h : t.contents.length + saltLen ≤ scratchDatagram) :
    (s.trySend blake2b256 salt inner t).1 = inner ∧
      (s.trySend blake2b256 salt inner t).2.1 = [{ t with
        destination := if s.hopIndex.isSome then s.currentDest else t.destination
        contents := obfs.salted blake2b256 salt t.contents
        segmentSize := none }] := by
  have hbuf : obfs.obfuscate blake2b256 salt t.contents s.writeBuf = _ :=
    Salamander.obfuscate_eq salt (h.trans_eq s.length_writeBuf.symm)
  have hpos : t.contents.length + saltLen ≠ 0 := Nat.succ_ne_zero _
  have htake : (obfs.salted blake2b256 salt t.contents ++
      s.writeBuf.drop (t.contents.length + saltLen)).take (t.contents.length + saltLen) = _ :=
    List.take_left' (obfs.length_salted blake2b256 salt t.contents)
  simp only [ObfsHopSocket.trySend, hobfs, hbuf, hpos, if_false, htake, and_self]

/-- A datagram that is too large for the write buffer is dropped. -/
theorem trySend_obfs_of_lt (blake2b256 : Bytes → Digest) (hobfs : s.obfs = some obfs) (salt : Salt)
    (inner : Except IoError Unit) {t : Transmit}
    (h : scratchDatagram < t.contents.length + saltLen) :
    (s.trySend blake2b256 salt inner t).1 = .ok () ∧
      (s.trySend blake2b256 salt inner t).2.1 = [] := by
  have hbuf : obfs.obfuscate blake2b256 salt t.contents s.writeBuf = (0, s.writeBuf) :=
    Salamander.obfuscate_of_lt salt (s.length_writeBuf.trans_lt h)
  simp only [ObfsHopSocket.trySend, hobfs, hbuf, if_true, and_self]

/-- **Obfuscation over the socket is transparent.** A payload of at most 2040 bytes is handed to the
inner socket as one datagram, 8 bytes longer, and a larger one is dropped. A receiver with the same
key maps the datagram back to the payload, and every datagram with a payload is the obfuscation of
that payload under its own salt. -/
theorem trySend_transparent (blake2b256 : Bytes → Digest) (hobfs : s.obfs = some obfs) (salt : Salt)
    (inner : Except IoError Unit) (t : Transmit) :
    (t.contents.length ≤ 2040 → ∃ w,
      (s.trySend blake2b256 salt inner t).2.1.map Transmit.contents = [w] ∧
        (s.trySend blake2b256 salt inner t).1 = inner ∧ w.length = t.contents.length + 8 ∧
        (1 ≤ t.contents.length → ∀ out : Bytes, t.contents.length ≤ out.length →
          obfs.deobfuscate blake2b256 w out =
            (t.contents.length, t.contents ++ out.drop t.contents.length))) ∧
      (2040 < t.contents.length → (s.trySend blake2b256 salt inner t).2.1 = [] ∧
        (s.trySend blake2b256 salt inner t).1 = .ok ()) ∧
      ∀ (w : Bytes) (hw : 8 < w.length) (out buf : Bytes), w.length - 8 ≤ out.length →
        w.length ≤ buf.length →
        (obfs.deobfuscate blake2b256 w out).1 = w.length - 8 ∧
          obfs.obfuscate blake2b256 ⟨w.take 8, List.length_take_of_le hw.le⟩
            ((obfs.deobfuscate blake2b256 w out).2.take (obfs.deobfuscate blake2b256 w out).1)
            buf = (w.length, w ++ buf.drop w.length) := by
  refine ⟨fun hle => ?_, fun hgt => ?_, fun w hw out buf hout hbuf => ?_⟩
  · have hfits : t.contents.length + saltLen ≤ scratchDatagram := by
      change t.contents.length + 8 ≤ 2048
      omega
    obtain ⟨hresult, hhanded⟩ := trySend_obfs_of_le blake2b256 hobfs salt inner hfits
    have hlen := obfs.length_salted blake2b256 salt t.contents
    refine ⟨obfs.salted blake2b256 salt t.contents, ?_, hresult, hlen, fun hpos out hout => ?_⟩
    · rw [hhanded, List.map_singleton]
    · have hsub : t.contents.length + saltLen - saltLen = t.contents.length :=
        Nat.add_sub_cancel _ _
      have haccept : Salamander.Accepts (obfs.salted blake2b256 salt t.contents) out.length := by
        rw [Salamander.Accepts, hlen, hsub]
        exact ⟨by omega, hout⟩
      rw [Salamander.deobfuscate_eq haccept, Salamander.unmask_salted, hlen, hsub]
  · have hlarge : scratchDatagram < t.contents.length + saltLen := by
      change 2048 < t.contents.length + 8
      omega
    exact (trySend_obfs_of_lt blake2b256 hobfs salt inner hlarge).symm
  · have haccept : Salamander.Accepts w out.length := ⟨hw, hout⟩
    have hunmask := obfs.length_unmask blake2b256 w
    have hsum : w.length - saltLen + saltLen = w.length := Nat.sub_add_cancel hw.le
    rw [Salamander.deobfuscate_eq haccept]
    refine ⟨rfl, ?_⟩
    simp only [List.take_left' hunmask]
    have heq : obfs.obfuscate blake2b256 ⟨w.take saltLen, List.length_take_of_le hw.le⟩
        (obfs.unmask blake2b256 w) buf = _ :=
      Salamander.obfuscate_eq _ (by rw [hunmask, hsum]; exact hbuf)
    rw [obfs.salted_unmask blake2b256 w hw.le, hunmask, hsum] at heq
    exact heq

/-- Two bytes, sent through a socket that does not hop, with a digest that repeats the key and the
salt. -/
theorem trySend_transparent_two_bytes :
    ∃ w, ((ObfsHopSocket.mk (some ⟨[1, 2, 3, 4], by decide⟩) none [] nofun ⟨.v4 0, 443⟩
        (List.replicate scratchDatagram 5) List.length_replicate).trySend
          (fun bytes i => bytes.getD i 0) ⟨[9, 9, 9, 9, 9, 9, 9, 9], rfl⟩ (.ok ())
          ⟨⟨.v4 0, 443⟩, none, [7, 8], none, none⟩).2.1.map Transmit.contents = [w] ∧
      w.length = 10 ∧ (Salamander.mk [1, 2, 3, 4] (by decide)).deobfuscate
        (fun bytes i => bytes.getD i 0) w [0, 0, 0] = (2, [7, 8, 0]) := by
  obtain ⟨w, hw, -, hlen, hback⟩ := (trySend_transparent (fun bytes i => bytes.getD i 0)
    (s := ObfsHopSocket.mk (some ⟨[1, 2, 3, 4], by decide⟩) none [] nofun ⟨.v4 0, 443⟩
      (List.replicate scratchDatagram 5) List.length_replicate) rfl
    ⟨[9, 9, 9, 9, 9, 9, 9, 9], rfl⟩ (.ok ()) ⟨⟨.v4 0, 443⟩, none, [7, 8], none, none⟩).1 (by decide)
  exact ⟨w, hw, hlen, hback (by decide) [0, 0, 0] (by decide)⟩

end Send

end Rsteria.Transport
