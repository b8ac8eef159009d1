import Rsteria.Client
import Rsteria.Connect.Address
import Rsteria.Connect.Auth
import Rsteria.Connect.Endpoint
import Rsteria.Lib.Fallible
import Rsteria.Lib.TimeSpan
import Rsteria.Transport.Pin
import Rsteria.Transport.Tls
import Rsteria.Transport.Tunnel
import Rsteria.Udp.Session

/-!
# Connecting, from the configuration to the client

`connect` of `src/connect.rs` as a whole, with `transport_config` and `build_endpoint` of
`src/transport/mod.rs`. Name resolution, the local socket, the QUIC, TLS and HTTP/3 libraries and
the server take part through their answers (`World`), which may be panics for the QUIC and HTTP/3
libraries: they compute with the times of the configuration, and not all of these can be added to
the clock. The steps of `connect` fail with an error or panic, and the first one that does ends it.

The client itself panics in two places: `parse_pin` slices the text of a pin by bytes, and
`transport_config` expects that the idle timeout is accepted (`connect_panics_iff`). A client that
is returned keeps what the configuration asks for (`connect_upholds`): the server was verified, by
the pin and by the chain as configured, under the configured name; an obfuscation password is never
ignored, in any run of the socket; and the server accepted the request with the password.

## Main definitions

* `Connect.QuicParams`, `Connect.DialConfig` : the configuration with all of its fields.
* `Connect.transportConfig`, `Connect.buildEndpoint`, `Connect.connect`.
* `Connect.Quinn`, `Connect.World` : the answers of everything outside the client.
* `Connect.Upholds` : a connection keeps what the configuration asks for.

## Main results

* `Connect.connect_panics_iff` : when connecting panics.
* `Connect.connect_upholds` : what a returned client guarantees.
-/

namespace Rsteria.Connect

open Congestion Protocol Transport Transport.Tls

/-! ### The configuration -/

/-- QUIC transport tuning. -/
structure QuicParams where
  streamReceiveWindow : UInt64 := 8 * 1024 * 1024
  connectionReceiveWindow : UInt64 := 8 * 1024 * 1024 * 5 / 2
  maxIdleTimeout : TimeSpan := .fromSecs 30
  keepAliveInterval : TimeSpan := .fromSecs 10
  initialRtt : TimeSpan := .fromMillis 100
  disablePathMtuDiscovery : Bool := false

/-- The client configuration, with the fields that only `connect` reads. -/
structure DialConfig extends ServerConfig where
  auth : String := ""
  insecure : Bool := false
  rxBps : UInt64 := 0
  fastOpen : Bool := true
  pinSha256 : String := ""
  caPem : String := ""
  quic : QuicParams := {}

/-! ### The endpoint -/

/-- `quinn::TransportConfig`, as far as it is set. Windows are varints, the idle timeout is in
milliseconds, and the controller is BBR without shared cells. -/
structure TransportConfig where
  keepAliveInterval : TimeSpan
  maxIdleTimeout : ℕ
  initialRtt : TimeSpan
  streamReceiveWindow : ℕ
  receiveWindow : ℕ
  mtuDiscovery : Bool
  datagramReceiveBufferSize : ℕ
  datagramSendBufferSize : ℕ
  controller : Option SwitchableFactory

/-- The QUIC library. -/
structure Quinn (Roots : Type) where
  /-- `VarInt::from_u64`. -/
  varInt : UInt64 → Option ℕ
  /-- `VarInt::MAX`. -/
  varIntMax : ℕ
  /-- `IdleTimeout::try_from`, in milliseconds. -/
  idleTimeout : TimeSpan → Option ℕ
  /-- `QuicClientConfig::try_from`. -/
  clientConfig : ClientConfig Roots → Fallible String String Unit
  wrapUdpSocket : Fallible String IoError Unit
  newEndpoint : Fallible String IoError Unit
  /-- `Endpoint::connect`, with the address and the server name. -/
  dial : TransportConfig → SocketAddr → String → Fallible String String Unit
  /-- The path to the server, on which the handshake may fail. -/
  path : TransportConfig → Fallible String String Unit

/-- Build a tuned transport configuration; it panics if the idle timeout is refused. -/
def transportConfig {Roots : Type} (quinn : Quinn Roots) (brutal : Option SwitchableFactory)
    (quic : QuicParams) : Fallible Panic Error TransportConfig :=
  match quinn.idleTimeout quic.maxIdleTimeout with
  | some maxIdleTimeout =>
    .ok {
      keepAliveInterval := quic.keepAliveInterval
      maxIdleTimeout := maxIdleTimeout
      initialRtt := quic.initialRtt
      streamReceiveWindow := (quinn.varInt quic.streamReceiveWindow).getD quinn.varIntMax
      receiveWindow := (quinn.varInt quic.connectionReceiveWindow).getD quinn.varIntMax
      mtuDiscovery := !quic.disablePathMtuDiscovery
      datagramReceiveBufferSize := Udp.maxDatagramFrameSize * 1024
      datagramSendBufferSize := Udp.maxDatagramFrameSize * 1024
      controller := brutal }
  | none => .panic .idleTimeout

/-- What a server presents in a handshake. -/
structure ServerFlight where
  endEntity : CertificateDer
  intermediates : List CertificateDer
  ocsp : Bytes
  now : ℕ
  version : TlsVersion
  message : Bytes
  dss : DigitallySignedStruct

/-- The answers of everything outside the client. -/
structure World (Roots : Type) where
  rustls : Rustls Roots
  quinn : Quinn Roots
  h3 : H3
  lookupHost : String → UInt16 → Except IoError (List SocketAddr)
  /-- `UdpSocket::bind`. -/
  bind : String → Except IoError Unit
  server : ServerFlight
  /-- The text of a handshake that the verifier refused. -/
  refused : TlsError → String

/-- A QUIC endpoint: its socket, and its configuration. -/
structure Endpoint (Roots : Type) where
  socket : Option ObfsHopSocket
  crypto : ClientConfig Roots
  transport : TransportConfig

variable {Roots : Type} (world : World Roots)

/-- `SocketAddr::is_ipv6`. -/
def isIpv6 (addr : SocketAddr) : Bool :=
  match addr.ip with
  | .v4 _ => false
  | .v6 _ _ => true

/-- Create a client QUIC endpoint; the number is the draw for the first hop index. -/
def buildEndpoint (crypto : ClientConfig Roots) (brutal : Option SwitchableFactory)
    (quic : QuicParams) (obfs : Option Salamander) (hop : Option HopConfig)
    (canonical : SocketAddr) (r : ℕ) : Fallible Panic Error (Endpoint Roots) := do
  (world.quinn.clientConfig crypto).mapFailure .library fun text => .io ⟨.invalidInput, text⟩
  let transport ← transportConfig world.quinn brutal quic
  let bindAddr := if isIpv6 canonical then "[::]:0" else "0.0.0.0:0"
  Fallible.ofExcept Error.io (world.bind bindAddr)
  world.quinn.wrapUdpSocket.mapFailure .library .io
  let socket := ObfsHopSocket.new canonical obfs hop r
  world.quinn.newEndpoint.mapFailure .library .io
  return ⟨socket, crypto, transport⟩

/-! ### Connecting -/

/-- The obfuscation that is configured. -/
def obfuscation (config : Config) : Except Error (Option Salamander) :=
  if config.obfsPassword = "" then .ok none
  else
    match Salamander.new (utf8Bytes config.obfsPassword) with
    | some obfs => .ok (some obfs)
    | none => .error (.config "obfs password must be at least 4 bytes")

/-- What the verifier sees of a handshake with the server. -/
def ServerFlight.handshake (flight : ServerFlight) (serverName : String) : Handshake where
  endEntity := flight.endEntity
  intermediates := flight.intermediates
  serverName := serverName
  ocsp := flight.ocsp
  now := flight.now
  version := flight.version
  message := flight.message
  dss := flight.dss

/-- The checks of a handshake: the certificate, and then the signature. -/
def checkHandshake (verifier : Verifier Roots) (h : Handshake) : Except TlsError Unit := do
  verifier.verifyServerCert world.rustls h.toServerCert
  match h.version with
  | .tls12 => verifier.verifyTls12Signature world.rustls h.message h.endEntity h.dss
  | .tls13 => verifier.verifyTls13Signature world.rustls h.message h.endEntity h.dss

/-- A connection: the client, and what it was built from. -/
structure Connected (Roots : Type) where
  client : HysteriaClient
  endpoint : Endpoint Roots
  canonical : SocketAddr
  auth : AuthResponse

/-- Connect to a server and perform the authentication handshake. The draws are those for the hop
index and for the padding. -/
def connect (factory : SwitchableFactory) (config : DialConfig) (rHop r : ℕ) (draws : ℕ → ℕ) :
    Fallible Panic Error (Connected Roots) := do
  let serverName := config.resolvedServerName
  let (canonical, hop) ←
    Fallible.ofExcept (fun e : Error => e) (resolveEndpoint world.lookupHost config.toConfig)
  let obfs ← Fallible.ofExcept (fun e : Error => e) (obfuscation config.toConfig)
  let pin ← Fallible.ofOption .pinSlice (parsePin config.pinSha256)
  let crypto ← Fallible.ofExcept (fun e : Error => e)
    (buildClientConfig world.rustls config.insecure pin config.caPem)
  let brutal := brutalControl factory config.toConfig
  let endpoint ← buildEndpoint world crypto brutal config.quic obfs hop canonical rHop
  (world.quinn.dial endpoint.transport canonical serverName).mapFailure .library .connect
  (world.quinn.path endpoint.transport).mapFailure .library .connection
  Fallible.ofExcept (fun e => Error.connection (world.refused e))
    (checkHandshake world endpoint.crypto.verifier (world.server.handshake serverName))
  let auth ← (authenticateOver world.h3 config.auth config.rxBps r draws).1
  return ⟨.new config.fastOpen auth.udpEnabled auth.serverRx, endpoint, canonical, auth⟩

/-! ### What the steps establish -/

variable {world} {factory : SwitchableFactory} {config : DialConfig} {rHop r : ℕ} {draws : ℕ → ℕ}
  {c : Connected Roots}

/-- A call of the QUIC or HTTP libraries panics. -/
inductive World.Panics (world : World Roots) (text : String) : Prop where
  | clientConfig (crypto : ClientConfig Roots) (h : world.quinn.clientConfig crypto = .panic text) :
    world.Panics text
  | wrapUdpSocket (h : world.quinn.wrapUdpSocket = .panic text) : world.Panics text
  | newEndpoint (h : world.quinn.newEndpoint = .panic text) : world.Panics text
  | dial (transport : TransportConfig) (addr : SocketAddr) (serverName : String)
    (h : world.quinn.dial transport addr serverName = .panic text) : world.Panics text
  | path (transport : TransportConfig) (h : world.quinn.path transport = .panic text) :
    world.Panics text
  | h3 (h : world.h3.Panics text) : world.Panics text

/-- The endpoint that is built. -/
theorem buildEndpoint_spec {crypto : ClientConfig Roots} {brutal : Option SwitchableFactory}
    {quic : QuicParams} {obfs : Option Salamander} {hop : Option HopConfig}
    {canonical : SocketAddr} {endpoint : Endpoint Roots}
    (h : buildEndpoint world crypto brutal quic obfs hop canonical r = .ok endpoint) :
    endpoint.socket = ObfsHopSocket.new canonical obfs hop r ∧ endpoint.crypto = crypto := by
  simp only [buildEndpoint, Fallible.bind_eq_ok_iff, Fallible.pure_eq_ok_iff] at h
  obtain ⟨-, -, -, -, -, -, -, -, -, -, rfl⟩ := h
  exact ⟨rfl, rfl⟩

/-- An endpoint is built if nothing fails. -/
theorem buildEndpoint_of_ok {quic : QuicParams} {maxIdleTimeout : ℕ}
    (hidle : world.quinn.idleTimeout quic.maxIdleTimeout = some maxIdleTimeout)
    {crypto : ClientConfig Roots} (hquic : world.quinn.clientConfig crypto = .ok ())
    (hbind : ∀ addr, world.bind addr = .ok ()) (hwrap : world.quinn.wrapUdpSocket = .ok ())
    (hnew : world.quinn.newEndpoint = .ok ()) (brutal : Option SwitchableFactory)
    (obfs : Option Salamander) (hop : Option HopConfig) (canonical : SocketAddr) (r : ℕ) :
    ∃ transport, buildEndpoint world crypto brutal quic obfs hop canonical r =
      .ok ⟨ObfsHopSocket.new canonical obfs hop r, crypto, transport⟩ := by
  simp only [buildEndpoint, Fallible.bind_eq_ok_iff, Fallible.pure_eq_ok_iff,
    Fallible.ofExcept_eq_ok_iff, Fallible.mapFailure_eq_ok_iff, transportConfig, hidle]
  exact ⟨_, (), hquic, _, rfl, (), hbind _, (), hwrap, (), hnew, rfl⟩

/-- The steps of a connection. -/
theorem connect_eq_ok_iff :
    connect world factory config rHop r draws = .ok c ↔ ∃ hop obfs pin,
      resolveEndpoint world.lookupHost config.toConfig = .ok (c.canonical, hop) ∧
      obfuscation config.toConfig = .ok obfs ∧ parsePin config.pinSha256 = some (.ok pin) ∧
      buildClientConfig world.rustls config.insecure pin config.caPem = .ok c.endpoint.crypto ∧
      buildEndpoint world c.endpoint.crypto (brutalControl factory config.toConfig) config.quic obfs
        hop c.canonical rHop = .ok c.endpoint ∧
      world.quinn.dial c.endpoint.transport c.canonical config.resolvedServerName = .ok () ∧
      world.quinn.path c.endpoint.transport = .ok () ∧
      checkHandshake world c.endpoint.crypto.verifier
        (world.server.handshake config.resolvedServerName) = .ok () ∧
      (authenticateOver world.h3 config.auth config.rxBps r draws).1 = .ok c.auth ∧
      c.client = .new config.fastOpen c.auth.udpEnabled c.auth.serverRx := by
  simp only [connect, Fallible.bind_eq_ok_iff, Fallible.pure_eq_ok_iff,
    Fallible.ofExcept_eq_ok_iff, Fallible.ofOption_eq_ok_iff, Fallible.mapFailure_eq_ok_iff]
  constructor
  · rintro ⟨⟨canonical, hop⟩, hresolve, obfs, hobfs, pin, hpin, crypto, hcrypto, endpoint,
      hendpoint, ⟨⟩, hdial, ⟨⟩, hpath, ⟨⟩, hcheck, auth, hauth, rfl⟩
    obtain ⟨-, rfl⟩ := buildEndpoint_spec hendpoint
    exact ⟨hop, obfs, pin, hresolve, hobfs, hpin, hcrypto, hendpoint, hdial, hpath, hcheck, hauth,
      rfl⟩
  · rintro ⟨hop, obfs, pin, hresolve, hobfs, hpin, hcrypto, hendpoint, hdial, hpath, hcheck,
      hauth, hclient⟩
    refine ⟨(c.canonical, hop), hresolve, obfs, hobfs, pin, hpin, _, hcrypto, _, hendpoint, (),
      hdial, (), hpath, (), hcheck, c.auth, hauth, ?_⟩
    rw [← hclient]

/-! ### Panics -/

theorem checkHandshake_eq_ok_iff {verifier : Verifier Roots} {h : Handshake} :
    checkHandshake world verifier h = .ok () ↔ verifier.Accepts world.rustls h := by
  rw [checkHandshake, Verifier.Accepts]
  cases verifier.verifyServerCert world.rustls h.toServerCert with
  | error e => simp [bind, Except.bind]
  | ok u => cases h.version <;> simp [bind, Except.bind]

/-- The verifier of a configuration without a pin. -/
theorem verifier_of_no_pin {insecure : Bool} {caPem : String} {cfg : ClientConfig Roots}
    (hcfg : buildClientConfig world.rustls insecure none caPem = .ok cfg) :
    ∃ roots, buildRoots world.rustls caPem = .ok roots ∧
      cfg.verifier = if insecure then .noVerify else .webPki roots := by
  rw [buildClientConfig] at hcfg
  cases hroots : buildRoots world.rustls caPem with
  | error e =>
    rw [hroots] at hcfg
    exact absurd hcfg (by simp [bind, Except.bind])
  | ok roots =>
    refine ⟨roots, rfl, ?_⟩
    rw [hroots] at hcfg
    cases insecure with
    | true => exact congrArg ClientConfig.verifier (Except.ok.inj hcfg).symm
    | false => exact congrArg ClientConfig.verifier (Except.ok.inj hcfg).symm

/-- A connection keeps what the configuration asks for. -/
structure Upholds (world : World Roots) (config : DialConfig) (r : ℕ) (draws : ℕ → ℕ)
    (c : Connected Roots) : Prop where
  /-- The leaf certificate has the pinned digest. -/
  pinned : config.pinSha256 ≠ "" → ∃ pin, parsePin config.pinSha256 = some (.ok (some pin)) ∧
    world.rustls.sha256 world.server.endEntity = pin
  /-- The chain and the signature were checked, for the configured name and roots. -/
  verified : config.insecure = false → ∃ roots,
    buildRoots world.rustls config.caPem = .ok roots ∧
      (Verifier.webPki roots).Accepts world.rustls
        (world.server.handshake config.resolvedServerName)
  /-- A password is not ignored: what leaves the socket in any run is salted with it. -/
  obfuscated : config.obfsPassword ≠ "" → ∃ key : Salamander,
    key.psk = utf8Bytes config.obfsPassword ∧ ∀ blake2b256 es,
      (wire blake2b256 c.endpoint.socket es).map (fun t => (t.contents, t.segmentSize)) =
        ((sends es).filter fun p => p.2.contents.length ≤ 2040).map fun p =>
          (key.salted blake2b256 p.1 p.2.contents, none)
  /-- Without a password QUIC is passed on as it is. -/
  plain : config.obfsPassword = "" → ∀ blake2b256 es,
    (wire blake2b256 c.endpoint.socket es).map (fun t => (t.contents, t.segmentSize)) =
      (sends es).map fun p => (p.2.contents, p.2.segmentSize)
  /-- One request was sent, with the password and the rate of the configuration, and the server has
  accepted this request. -/
  accepted : ∃ req resp,
    authenticateOver world.h3 config.auth config.rxBps r draws = (.ok c.auth, [req]) ∧
      Asks config.auth config.rxBps req ∧ Answered world.h3 req resp ∧ resp.status = 233 ∧
      authenticate resp = .ok c.auth
  /-- The UDP relay is there if and only if the server announces it. -/
  udp : c.client.udpEnabled = c.auth.udpEnabled
  client : c.client.fastOpen = config.fastOpen ∧ c.client.serverRx = c.auth.serverRx

/-- The verifier that is installed accepts no handshake that the configuration does not allow. -/
theorem verified_of_accepts {insecure : Bool} {pin : Option Digest256} {caPem : String}
    {cfg : ClientConfig Roots} {h : Handshake}
    (hcfg : buildClientConfig world.rustls insecure pin caPem = .ok cfg)
    (haccepts : cfg.verifier.Accepts world.rustls h) :
    (∀ digest, pin = some digest → world.rustls.sha256 h.endEntity = digest) ∧
      (insecure = false → ∃ roots, buildRoots world.rustls caPem = .ok roots ∧
        (Verifier.webPki roots).Accepts world.rustls h) := by
  cases pin with
  | none =>
    refine ⟨fun digest hdigest => absurd hdigest (by simp), fun hsecure => ?_⟩
    obtain ⟨roots, hroots, hverifier⟩ := verifier_of_no_pin hcfg
    rw [hverifier, hsecure] at haccepts
    exact ⟨roots, hroots, haccepts⟩
  | some pin =>
    obtain ⟨roots, hroots, hverifier⟩ := verifier_of_pin hcfg
    rw [hverifier] at haccepts
    cases insecure with
    | true =>
      have hpin := accepts_pin_none_iff.1 haccepts
      exact ⟨fun digest hdigest => hpin.trans (Option.some.inj hdigest),
        fun hsecure => absurd hsecure (by simp)⟩
    | false =>
      obtain ⟨hpin, hchain, hsignature⟩ := accepts_pin_some_iff.1 haccepts
      exact ⟨fun digest hdigest => hpin.trans (Option.some.inj hdigest), fun _ =>
        ⟨roots, hroots, (Verifier.accepts_iff _ h).2 ⟨hchain, hsignature⟩⟩⟩

/-- A pin that was read from a text that is not empty is there. -/
theorem exists_pin {s : String} {pin : Option Digest256} (hs : s ≠ "")
    (h : parsePin s = some (.ok pin)) : ∃ digest, pin = some digest := by
  rw [parsePin, if_neg hs] at h
  split_ifs at h
  · exact absurd h (by simp)
  · obtain ⟨result, -, hresult⟩ := Option.map_eq_some_iff.1 h
    cases result with
    | error e => exact absurd hresult (by simp [Except.map])
    | ok digest => exact ⟨digest, (Except.ok.inj hresult).symm⟩

/-- The obfuscation that a password stands for. -/
theorem obfuscation_spec {config : Config} {obfs : Option Salamander}
    (h : obfuscation config = .ok obfs) :
    (config.obfsPassword = "" → obfs = none) ∧ (config.obfsPassword ≠ "" →
      ∃ key, obfs = some key ∧ key.psk = utf8Bytes config.obfsPassword) := by
  rw [obfuscation] at h
  split_ifs at h with hempty
  · exact ⟨fun _ => (Except.ok.inj h).symm, fun hne => absurd hempty hne⟩
  · refine ⟨fun heq => absurd heq hempty, fun _ => ?_⟩
    rw [Salamander.new] at h
    split_ifs at h with hshort
    exact ⟨_, (Except.ok.inj h).symm, rfl⟩

/-- **A client keeps what its configuration asks for.** Whatever the network and the server answer,
if `connect` returns a client then the server was verified as configured, by the pin too if there is
one; every run of the socket obfuscates if and only if there is a password, and with it; and the
server has accepted the request. -/
theorem connect_upholds (world : World Roots) (factory : SwitchableFactory) (config : DialConfig)
    (rHop r : ℕ) (draws : ℕ → ℕ) (c : Connected Roots)
    (h : connect world factory config rHop r draws = .ok c) : Upholds world config r draws c := by
  obtain ⟨hop, obfs, pin, -, hobfs, hpin, hcrypto, hendpoint, -, -, hcheck, hauth, hclient⟩ :=
    connect_eq_ok_iff.1 h
  obtain ⟨hsocket, -⟩ := buildEndpoint_spec hendpoint
  obtain ⟨hdigest, hchain⟩ := verified_of_accepts hcrypto (checkHandshake_eq_ok_iff.1 hcheck)
  obtain ⟨hplain, hkey⟩ := obfuscation_spec hobfs
  refine ⟨fun hne => ?_, hchain, fun hne => ?_, fun hempty blake2b256 es => ?_, ?_, ?_, ?_⟩
  · obtain ⟨digest, rfl⟩ := exists_pin hne hpin
    exact ⟨digest, hpin, hdigest digest rfl⟩
  · obtain ⟨key, rfl, hpsk⟩ := hkey hne
    refine ⟨key, hpsk, fun blake2b256 es => ?_⟩
    rw [hsocket]
    exact wire_eq (keyed_new c.canonical key hop rHop) blake2b256 es
  · rw [hsocket, hplain hempty]
    exact wire_of_unkeyed (unkeyed_new c.canonical hop rHop) blake2b256 es
  · obtain ⟨-, hok, -⟩ := authentication_exchange world.h3 config.auth config.rxBps r draws
    obtain ⟨req, resp, hsent, hasks, hanswered, hstatus, haccepted⟩ := hok c.auth hauth
    exact ⟨req, resp, Prod.ext hauth hsent, hasks, hanswered, hstatus, haccepted⟩
  · rw [hclient, HysteriaClient.udpEnabled, HysteriaClient.new]
    cases c.auth.udpEnabled <;> rfl
  · rw [hclient]
    exact ⟨rfl, rfl⟩

/-- A QUIC library for the default settings. -/
def sampleQuinn : Quinn Unit where
  varInt v := if v.toNat < 2 ^ 62 then some v.toNat else none
  varIntMax := 2 ^ 62 - 1
  idleTimeout d := if d.asMillis < 2 ^ 62 then some d.asMillis else none
  clientConfig _ := .ok ()
  wrapUdpSocket := .ok ()
  newEndpoint := .ok ()
  dial _ _ _ := .ok ()
  path _ := .ok ()

/-- A network that carries everything to a server with the empty certificate. -/
def sampleWorld : World Unit where
  rustls := sampleRustls
  quinn := sampleQuinn
  h3 := ⟨.ok (), fun _ => .ok (), fun _ => .ok (), fun _ => .ok (),
    fun _ => .ok ⟨233, fun _ => none⟩⟩
  lookupHost _ port := .ok [⟨.v4 0x7f000001, port⟩]
  bind _ := .ok ()
  server := ⟨[], [], [], 0, .tls13, [2], ⟨0x0403, [2]⟩⟩
  refused _ := "handshake refused"

/-- A configuration with a password, a pin and two ports. -/
def sampleConfig : DialConfig where
  serverAddr := "localhost:443"
  hopPorts := "2-1"
  obfsPassword := "abcd"
  auth := "secret"
  pinSha256 := "0000000000000000000000000000000000000000000000000000000000000000"

/-- A connection with a password, a pin and two ports. -/
theorem connect_upholds_sample :
    ∃ c, connect sampleWorld ⟨0, 1⟩ sampleConfig 0 0 (fun i => i) = .ok c ∧
      Upholds sampleWorld sampleConfig 0 (fun i => i) c := by
  have hspec : portSpec sampleConfig.toConfig = .ok "2-1" := if_pos (by decide)
  have hresolve : resolveEndpoint sampleWorld.lookupHost sampleConfig.toConfig = _ :=
    resolveEndpoint_eq hspec parsePorts_two_ports rfl
  have hpin : parsePin sampleConfig.pinSha256 = some (.ok (some (Vector.replicate 32 0))) := by
    decide +kernel
  have hauth : (authenticateOver sampleWorld.h3 sampleConfig.auth sampleConfig.rxBps 0
      fun i => i).1 = .ok ⟨false, 0, false⟩ :=
    authenticateOver_of_ok rfl (fun _ => rfl) (fun _ => rfl) (fun _ => rfl) (fun _ => rfl) rfl ..
  obtain ⟨transport, hendpoint⟩ := buildEndpoint_of_ok
    (rfl : sampleWorld.quinn.idleTimeout sampleConfig.quic.maxIdleTimeout = some 30000)
    (rfl : sampleWorld.quinn.clientConfig ⟨.pin (some ()) (Vector.replicate 32 0), [alpnH3]⟩ = _)
    (fun _ => rfl) rfl rfl (brutalControl ⟨0, 1⟩ sampleConfig.toConfig)
    (some ⟨utf8Bytes "abcd", by decide⟩)
    (hopConfig sampleConfig.toConfig (.v4 0x7f000001) [1, 2]) ⟨.v4 0x7f000001, 1⟩ 0
  have hconnect : connect sampleWorld ⟨0, 1⟩ sampleConfig 0 0 (fun i => i) =
      .ok ⟨.new true false 0, ⟨_, _, transport⟩, ⟨.v4 0x7f000001, 1⟩, ⟨false, 0, false⟩⟩ :=
    connect_eq_ok_iff.2
      ⟨_, _, _, hresolve, rfl, hpin, rfl, hendpoint, rfl, rfl, rfl, hauth, rfl⟩
  exact ⟨_, hconnect, connect_upholds _ _ _ _ _ _ _ hconnect⟩

end Rsteria.Connect
