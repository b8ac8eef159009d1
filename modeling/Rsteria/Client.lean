import Rsteria.Error
import Rsteria.Stream.Duplex
import Rsteria.Udp.Relay

/-!
# The connected client

`HysteriaClient` of `src/client.rs`. `tcp_connect` opens a QUIC stream, writes the request, and
without fast-open waits for the response before it returns the stream. The QUIC connection takes
part through its answers: the stream that is opened, the send side of that stream, and the polls of
the receive side.

A proxied connection is right in both directions and under every interleaving of the calls of the
application (`tcpConnect_proxies`). Whatever becomes of the call, a prefix of the request was sent
and nothing else. On a stream that it returns the server reads the request, and behind it the bytes
that the writes of the application report, in order. What the application reads is what it would
read if it wrote nothing. Without fast-open no byte of the application is sent before an accepted
response was received.

## Main definitions

* `HysteriaClient`, `HysteriaClient.new`, `HysteriaClient.tcpConnect`, `HysteriaClient.udp`.
* `TcpConnectIo.Opens` : `open_bi` gives a stream on which nothing was sent.
* `HysteriaClient.Proxies` : a proxied connection, in both directions.

## Main results

* `HysteriaClient.tcpConnect_spec` : what `tcp_connect` sends and returns.
* `HysteriaClient.tcpConnect_proxies` : the streams that `tcp_connect` returns.
-/

open Rsteria.Protocol Rsteria.Stream

namespace Rsteria

/-- A connected client: what `connect` hands to it beside the connection. The manager of the UDP
sessions is there if the server supports the relay. -/
structure HysteriaClient where
  fastOpen : Bool
  serverRx : UInt64
  udpSm : Option Udp.Relay

/-- The answers of the QUIC connection during a call of `tcp_connect`: to `open_bi`, with the two
sides of the stream, and to the wake-ups of the task that waits for the response. -/
structure TcpConnectIo (σ : Type) where
  openBi : Poll (Except String (σ × RecvStream))
  wakes : List (List RecvPoll)

/-- A stream that is opened has sent nothing, and the server sends `S` on it. -/
def TcpConnectIo.Opens {σ : Type} (io : TcpConnectIo σ) (sent : σ → Bytes) (S : Bytes) : Prop :=
  ∀ send recv, io.openBi = .ready (.ok (send, recv)) → sent send = [] ∧ recv = ⟨S⟩

namespace HysteriaClient

/-- `HysteriaClient::new`. -/
def new (fastOpen udpEnabled : Bool) (serverRx : UInt64) : HysteriaClient where
  fastOpen := fastOpen
  serverRx := serverRx
  udpSm := if udpEnabled then some Udp.Relay.new else none

/-- The part of `tcp_connect` that writes the request and flushes it. -/
def sendRequest {σ : Type} (quic : SendStream σ) (send : σ) (request : Bytes) :
    Poll (Except Error Unit) × σ :=
  match quic.writeAll send request with
  | (.pending, send) => (.pending, send)
  | (.ready (.error text), send) => (.ready (.error (.io (Duplex.ioErrorOther text))), send)
  | (.ready (.ok ()), send) =>
    match quic.pollFlush send with
    | (.pending, send) => (.pending, send)
    | (.ready (.error e), send) => (.ready (.error (.io (Duplex.ioErrorOther e.message))), send)
    | (.ready (.ok ()), send) => (.ready (.ok ()), send)

/-- The part of `tcp_connect` that waits for the response without fast-open. -/
def awaitResponse (client : HysteriaClient) (stream : DuplexStream) (wakes : List (List RecvPoll)) :
    Poll (Except Error DuplexStream) :=
  if !client.fastOpen then
    match stream.establish wakes with
    | (.ready (.ok ()), stream) => .ready (.ok stream)
    | (.ready (.error e), _) => .ready (.error (.io e))
    | (.pending, _) => .pending
  else
    .ready (.ok stream)

/-- `HysteriaClient::tcp_connect`: the result, and the send side as the call leaves it, if a stream
was opened. The draws are those for the padding of the request. -/
def tcpConnect {σ : Type} (quic : SendStream σ) (client : HysteriaClient) (address : String) (r : ℕ)
    (draws : ℕ → ℕ) (io : TcpConnectIo σ) : Poll (Except Error (Duplex σ)) × Option σ :=
  match io.openBi with
  | .pending => (.pending, none)
  | .ready (.error text) => (.ready (.error (.connection text)), none)
  | .ready (.ok (send, recv)) =>
    match sendRequest quic send (encodeTcpRequest address r draws) with
    | (.pending, send) => (.pending, some send)
    | (.ready (.error e), send) => (.ready (.error e), some send)
    | (.ready (.ok ()), send) =>
      match client.awaitResponse (DuplexStream.new recv) io.wakes with
      | .pending => (.pending, some send)
      | .ready (.error e) => (.ready (.error e), some send)
      | .ready (.ok stream) => (.ready (.ok ⟨stream, send⟩), some send)

/-- `HysteriaClient::udp`: the client with one more session, or the error. -/
def udp (client : HysteriaClient) : Except Error HysteriaClient :=
  match client.udpSm with
  | some sm => .ok { client with udpSm := some sm.newSession }
  | none => .error (.protocol "UDP relay not enabled by server")

/-- `HysteriaClient::udp_enabled`. -/
def udpEnabled (client : HysteriaClient) : Bool := client.udpSm.isSome

/-! ### What `tcp_connect` sends and returns -/

variable {σ : Type} {quic : SendStream σ} {sent : σ → Bytes} {finished : σ → Prop}
  {client : HysteriaClient} {address : String} {r : ℕ} {draws : ℕ → ℕ} {S : Bytes}
  {io : TcpConnectIo σ}

theorem sendRequest_spec (hquic : quic.Lawful sent finished) (send : σ) (request : Bytes) :
    ∃ done, done <+: request ∧ sent (sendRequest quic send request).2 = sent send ++ done ∧
      ((sendRequest quic send request).1 = .ready (.ok ()) → done = request) := by
  obtain ⟨done, hfront, hdone, hall⟩ := hquic.sent_writeAll send request
  refine ⟨done, hfront, ?_⟩
  rw [sendRequest]
  split
  · rename_i send₁ hwrite
    rw [hwrite] at hdone
    exact ⟨hdone, fun h => absurd h (by simp)⟩
  · rename_i text send₁ hwrite
    rw [hwrite] at hdone
    exact ⟨hdone, fun h => absurd h (by simp)⟩
  · rename_i send₁ hwrite
    rw [hwrite] at hdone hall
    have hflush := hquic.sent_flush send₁
    split
    · rename_i send₂ heq
      rw [heq] at hflush
      exact ⟨hflush.trans hdone, fun h => absurd h (by simp)⟩
    · rename_i e send₂ heq
      rw [heq] at hflush
      exact ⟨hflush.trans hdone, fun h => absurd h (by simp)⟩
    · rename_i send₂ heq
      rw [heq] at hflush
      exact ⟨hflush.trans hdone, fun _ => hall rfl⟩

theorem awaitResponse_eq_ok {stream stream' : DuplexStream} {wakes : List (List RecvPoll)}
    (h : client.awaitResponse stream wakes = .ready (.ok stream')) :
    client.fastOpen = true ∧ stream' = stream ∨
      client.fastOpen = false ∧ stream.establish wakes = (.ready (.ok ()), stream') := by
  rw [awaitResponse] at h
  split_ifs at h with hfast
  · split at h
    · rename_i stream₁ hest
      obtain rfl := Except.ok.inj (Poll.ready.inj h)
      exact .inr ⟨by simpa using hfast, hest⟩
    · exact absurd h (by simp)
    · exact absurd h (by simp)
  · exact .inl ⟨by simpa using hfast, (Except.ok.inj (Poll.ready.inj h)).symm⟩

/-- Whatever becomes of the call, a prefix of the request was sent, and the whole of it if the call
returns a stream. Its read side is the new one, or the established one without fast-open. -/
theorem tcpConnect_spec (hquic : quic.Lawful sent finished) (hopens : io.Opens sent S)
    (client : HysteriaClient) (address : String) (r : ℕ) (draws : ℕ → ℕ) :
    (∀ send, (client.tcpConnect quic address r draws io).2 = some send →
      sent send <+: encodeTcpRequest address r draws) ∧
      ∀ d, (client.tcpConnect quic address r draws io).1 = .ready (.ok d) →
        sent d.send = encodeTcpRequest address r draws ∧
          (client.fastOpen = true ∧ d.toDuplexStream = .new ⟨S⟩ ∨
            client.fastOpen = false ∧
              (DuplexStream.new ⟨S⟩).establish io.wakes =
                (.ready (.ok ()), d.toDuplexStream)) := by
  rw [tcpConnect]
  split
  · exact ⟨fun send hsend => absurd hsend (by simp), fun d hd => absurd hd (by simp)⟩
  · exact ⟨fun send hsend => absurd hsend (by simp), fun d hd => absurd hd (by simp)⟩
  · rename_i send recv hopen
    obtain ⟨hnil, rfl⟩ := hopens send recv hopen
    obtain ⟨done, hfront, hdone, hall⟩ :=
      sendRequest_spec hquic send (encodeTcpRequest address r draws)
    rw [hnil, List.nil_append] at hdone
    split
    · rename_i send₁ hsend
      rw [hsend] at hdone
      exact ⟨fun send' h => Option.some.inj h ▸ hdone ▸ hfront, fun d hd => absurd hd (by simp)⟩
    · rename_i e send₁ hsend
      rw [hsend] at hdone
      exact ⟨fun send' h => Option.some.inj h ▸ hdone ▸ hfront, fun d hd => absurd hd (by simp)⟩
    · rename_i send₁ hsend
      rw [hsend] at hdone hall
      obtain rfl := hall rfl
      have hsent : sent send₁ <+: encodeTcpRequest address r draws := hdone ▸ hfront
      split
      · exact ⟨fun send' h => Option.some.inj h ▸ hsent, fun d hd => absurd hd (by simp)⟩
      · exact ⟨fun send' h => Option.some.inj h ▸ hsent, fun d hd => absurd hd (by simp)⟩
      · rename_i stream hstream
        refine ⟨fun send' h => Option.some.inj h ▸ hsent, fun d hd => ?_⟩
        obtain rfl := Except.ok.inj (Poll.ready.inj hd)
        exact ⟨hdone, awaitResponse_eq_ok hstream⟩

/-! ### A proxied connection -/

open Mealy Duplex in
/-- The calls `ops` on a stream to `address`, whose request was padded with `pad`, on a connection
on which the server sends `S`. -/
structure Proxies (quic : SendStream σ) (sent : σ → Bytes) (client : HysteriaClient)
    (address : String) (pad S : Bytes) (d : Duplex σ) (ops : List Op) : Prop where
  /-- The server reads the request and behind it a prefix of what the writes report. -/
  uplink : ServerReads address pad (reported ops (outputs (step quic) d ops))
    (sent (final (step quic) d ops).send)
  /-- When everything has arrived, the server has read all of what the writes report. -/
  arrived : decodeTcpRequest (sent (final (step quic) d ops).send) =
    some ⟨0x401, utf8Bytes address, pad, reported ops (outputs (step quic) d ops)⟩
  /-- Once a shutdown has succeeded nothing is written. -/
  closed : ∀ t, Reply.shutdown (.ready (.ok ())) ∈ outputs (step quic) d (ops.take t) →
    reported ops (outputs (step quic) d ops) =
      reported (ops.take t) (outputs (step quic) d (ops.take t))
  /-- The application reads what it would read without the other calls. -/
  downlink : (outputs (step quic) d ops).filterMap Reply.readResult =
    outputs DuplexStream.read d.toDuplexStream (ops.filterMap Op.readCall)
  /-- Without fast-open an accepted response was received before the first write. -/
  accepted : client.fastOpen = false →
    ∃ heard, heard ++ d.recv.rest = S ∧ BeginsWithResponse true heard

/-- The read side that `establish` returns has received an accepted response. -/
theorem heard_of_establish {wakes : List (List RecvPoll)} {stream : DuplexStream}
    (hest : (DuplexStream.new ⟨S⟩).establish wakes = (.ready (.ok ()), stream)) :
    ∃ heard, heard ++ stream.recv.rest = S ∧ BeginsWithResponse true heard := by
  have hheard : (DuplexStream.new ⟨S⟩).Heard S := .header rfl rfl
  obtain ⟨hfinal, hdone⟩ := hheard.establish wakes
  rw [hest] at hfinal hdone
  cases hfinal with
  | header hopen => exact absurd (hopen.symm.trans (hdone rfl)) (by simp)
  | data _ heard hbytes haccepted => exact ⟨heard, hbytes, haccepted⟩

/-- **A proxied connection is right in both directions**, on a QUIC library that does what it
documents. Whatever becomes of a call of `tcp_connect`, it has sent no more than a prefix of the
request for the address; on a stream that it returns, every sequence of reads, writes, flushes and
shutdowns `Proxies`, and if the server accepts with the header `H` and sends `A` on a transport
whose receive side does not fail, the reads deliver exactly `A`. -/
theorem tcpConnect_proxies {σ : Type} (quic : SendStream σ) (sent : σ → Bytes)
    (finished : σ → Prop) (hquic : quic.Lawful sent finished) (client : HysteriaClient)
    (address : String) (h : address.utf8ByteSize < 2 ^ 62) (r : ℕ) (draws : ℕ → ℕ) (S : Bytes)
    (io : TcpConnectIo σ) (hopens : io.Opens sent S) :
    (∀ send, (client.tcpConnect quic address r draws io).2 = some send →
      sent send <+: encodeTcpRequest address r draws ∧
        ServerReads address (tcpRequestPadding r draws) [] (sent send)) ∧
      ∀ d, (client.tcpConnect quic address r draws io).1 = .ready (.ok d) →
        ∀ ops : List Duplex.Op,
          client.Proxies quic sent address (tcpRequestPadding r draws) S d ops ∧
            ∀ H A, S = H ++ A → parseTcpResponse H = .done true H.length →
              (∀ polls ∈ io.wakes, Healthy polls) →
              (∀ c ∈ ops.filterMap Duplex.Op.readCall, Healthy c.polls) →
              ReadsExactly H.length A d.toDuplexStream (ops.filterMap Duplex.Op.readCall) := by
  obtain ⟨hsent, hstream⟩ := tcpConnect_spec hquic hopens client address r draws
  refine ⟨fun send hsend => ⟨hsent send hsend, ?_⟩, fun d hd ops => ?_⟩
  · exact serverReads_append h r draws ((hsent send hsend).trans (List.prefix_append _ _))
  obtain ⟨hsend, hread⟩ := hstream d hd
  refine ⟨?_, ?_⟩
  · have hfinal := Duplex.sent_final hquic d ops
    rw [hsend] at hfinal
    refine ⟨?_, ?_, fun t ht => Duplex.reported_of_shutdown hquic ht,
      Duplex.outputs_read quic d ops, fun hfast => ?_⟩
    · rw [hfinal]
      exact serverReads_append h r draws List.prefix_rfl
    · rw [hfinal]
      exact decodeTcpRequest_append h r draws _
    · rcases hread with ⟨hopen, -⟩ | ⟨-, hest⟩
      · exact absurd (hopen.symm.trans hfast) (by simp)
      · exact heard_of_establish hest
  · rintro H A rfl hH hwakes hcalls
    have hnew := DuplexStream.carries_new H A
    rcases hread with ⟨-, hread⟩ | ⟨-, hest⟩
    · rw [hread]
      exact readsExactly_of_carries hH hnew hcalls
    · obtain ⟨s', hs', hstep | hstep⟩ := hnew.establish hH hwakes
      · exact absurd (hest.symm.trans hstep) (by simp)
      · obtain ⟨-, rfl⟩ := Prod.mk.inj (hest.symm.trans hstep)
        exact readsExactly_of_carries hH hs' hcalls

/-- A send side whose server grants a credit once: the bytes that were sent, what is left of the
credit, and whether the stream was finished. -/
structure CreditStream where
  sent : Bytes
  credit : ℕ
  finished : Bool

/-- Send as much of a buffer as the credit allows. -/
def CreditStream.push (s : CreditStream) (buf : Bytes) : CreditStream :=
  { s with sent := s.sent ++ buf.take s.credit, credit := s.credit - buf.length }

/-- The calls of such a stream. -/
def creditStream : SendStream CreditStream where
  pollWrite s buf :=
    if s.finished then (.ready (.error "closed stream"), s)
    else if s.credit = 0 then (.pending, s)
    else (.ready (.ok (min s.credit buf.length)), s.push buf)
  writeAll s buf :=
    if buf.isEmpty then (.ready (.ok ()), s)
    else if s.finished then (.ready (.error "closed stream"), s)
    else if buf.length ≤ s.credit then (.ready (.ok ()), s.push buf)
    else (.pending, s.push buf)
  pollFlush s := (.ready (.ok ()), s)
  pollShutdown s :=
    if s.finished then (.ready (.error ⟨.notConnected, "closed stream"⟩), s)
    else (.ready (.ok ()), { s with finished := true })

theorem lawful_creditStream :
    creditStream.Lawful CreditStream.sent fun s => s.finished = true where
  sent_write s buf := by
    simp only [creditStream]
    split_ifs
    · exact (List.append_nil _).symm
    · exact (List.append_nil _).symm
    · exact congrArg (s.sent ++ ·) List.take_eq_take_min
  sent_writeAll s buf := by
    simp only [creditStream]
    split_ifs with hnil hfin hle
    · exact ⟨[], List.nil_prefix, (List.append_nil _).symm, fun _ => (List.isEmpty_iff.1 hnil).symm⟩
    · exact ⟨[], List.nil_prefix, (List.append_nil _).symm, fun h => absurd h (by simp)⟩
    · exact ⟨_, List.take_prefix _ _, rfl, fun _ => List.take_of_length_le hle⟩
    · exact ⟨_, List.take_prefix _ _, rfl, fun h => absurd h (by simp)⟩
  sent_flush s := rfl
  sent_shutdown s := by
    simp only [creditStream]
    split_ifs <;> rfl
  finished_shutdown s _ := by
    simp only [creditStream]
    split_ifs with hfin
    · exact hfin
    · rfl
  finished_write s buf hfin := by simp [creditStream, hfin]
  finished_flush s hfin := hfin
  write_finished s buf n hfin := by simp [creditStream, hfin]

/-- A stream opened with fast-open, with a credit for the request and two bytes: of three bytes two
are written, one is read, and nothing is written after the shutdown. -/
theorem tcpConnect_proxies_fast_open :
    let io : TcpConnectIo CreditStream := ⟨.ready (.ok
      (⟨[], (encodeTcpRequest "a:1" 0 fun i => i).length + 2, false⟩, ⟨[0, 0, 0] ++ [7]⟩)), []⟩
    let ops : List Duplex.Op := [.write [1, 2, 3], .read ⟨8, [.ready 8]⟩, .shutdown, .write [4]]
    ∃ d, (tcpConnect creditStream ⟨true, 0, none⟩ "a:1" 0 (fun i => i) io).1 = .ready (.ok d) ∧
      Proxies creditStream CreditStream.sent ⟨true, 0, none⟩ "a:1"
        (tcpRequestPadding 0 fun i => i) ([0, 0, 0] ++ [7]) d ops ∧
      Duplex.reported ops (Mealy.outputs (Duplex.step creditStream) d ops) = [1, 2] ∧
      ReadsExactly 3 [7] d.toDuplexStream [⟨8, [.ready 8]⟩] := by
  intro io ops
  have hopens : io.Opens CreditStream.sent ([0, 0, 0] ++ [7]) := by
    intro send recv hopen
    obtain ⟨rfl, rfl⟩ := Prod.mk.inj (Except.ok.inj (Poll.ready.inj hopen))
    exact ⟨rfl, rfl⟩
  obtain ⟨-, hproxies⟩ := tcpConnect_proxies creditStream CreditStream.sent _ lawful_creditStream
    ⟨true, 0, none⟩ "a:1" (by decide) 0 (fun i => i) ([0, 0, 0] ++ [7]) io hopens
  have hopened : (tcpConnect creditStream ⟨true, 0, none⟩ "a:1" 0 (fun i => i) io).1 = .ready (.ok
      ⟨.new ⟨[0, 0, 0] ++ [7]⟩, ⟨encodeTcpRequest "a:1" 0 fun i => i, 2, false⟩⟩) := rfl
  obtain ⟨hboth, hreads⟩ := hproxies _ hopened ops
  refine ⟨_, hopened, hboth, by decide, hreads [0, 0, 0] [7] rfl (by decide)
    (fun _ h => absurd h List.not_mem_nil) fun c hc => ?_⟩
  rw [List.mem_singleton.1 hc]
  exact healthy_of_all rfl

end HysteriaClient

end Rsteria
