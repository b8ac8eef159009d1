import Rsteria.Config
import Rsteria.Congestion
import Rsteria.Error
import Rsteria.Transport.Hop

/-!
# Connecting to a server

The parts of `connect` of `src/connect.rs` that decide something: the resolution of the server
address into the address to dial and the addresses to hop between, the validation of the answer to
the authentication request, and the negotiation of the sending rate. The name resolution and the
HTTP exchange are given by their answers.

When an upload cap is configured, the connection uses a switchable controller, whose rate is the cap
and whose flag is clear until the handshake is done; then `connect` writes one of the shared cells,
or none (`negotiate`). So BBR governs the connection if the server answers `auto`, and Brutal
otherwise, at a rate that is not above the cap (`negotiatedControl`).

## Main definitions

* `Connect.resolveEndpoint`.
* `Connect.authenticate`, `Connect.negotiate`.

## Main results

* `Connect.negotiatedControl` : which controller governs, and at which rate.
* `Connect.switchable_faithful` : every controller behaves as the one that governs it.
-/

namespace Rsteria.Connect

open Congestion Protocol Transport

/-- `STATUS_AUTH_OK`. -/
def statusAuthOk : UInt16 := 233

/-- `DEFAULT_HOP_INTERVAL_SECS`. -/
def defaultHopIntervalSecs : ℕ := 30

/-- `MIN_HOP_INTERVAL_SECS`. -/
def minHopIntervalSecs : ℕ := 5

/-! ### The address of the server -/

/-- The port specification: the hop ports if there are any, or else what follows the last `:` of the
server address. -/
def portSpec (config : Config) : Except Error String :=
  if config.hopPorts ≠ "" then .ok config.hopPorts
  else
    match Text.rsplitOnce ':' config.serverAddr.toList with
    | some (_, port) => .ok (String.ofList port)
    | none => .error (.config ("server_addr missing port: " ++ config.serverAddr))

/-- The parameters of port hopping, if more than one port is in play. -/
def hopConfig (config : Config) (ip : IpAddr) (ports : List UInt16) : Option HopConfig :=
  if ports.length ≤ 1 then none
  else
    let addrs := ports.map (SocketAddr.mk ip)
    let min :=
      if config.hopIntervalMinSecs = 0 then defaultHopIntervalSecs
      else max config.hopIntervalMinSecs minHopIntervalSecs
    let max := if config.hopIntervalMaxSecs = 0 then min else max config.hopIntervalMaxSecs min
    some ⟨addrs, min * 1000, max * 1000⟩

/-- Resolve the server address, given the answers of the name resolution, into the address to dial
and the parameters of port hopping. -/
def resolveEndpoint (lookupHost : String → UInt16 → Except IoError (List SocketAddr))
    (config : Config) : Except Error (SocketAddr × Option HopConfig) := do
  let host := config.hostPart
  let spec ← portSpec config
  match h : parsePorts spec with
  | none => .error (.config ("invalid ports: " ++ spec))
  | some ports =>
    -- Parsing returns no empty list, so there is a first port.
    let firstPort := ports.head (parsePorts_spec h).2.2
    match lookupHost host firstPort with
    | .error e => .error (.io e)
    | .ok [] => .error (.config ("could not resolve server host: " ++ host))
    | .ok (addr :: _) => .ok (⟨addr.ip, firstPort⟩, hopConfig config addr.ip ports)

/-! ### The authentication handshake -/

/-- `HeaderValue` of the HTTP library: the answer of `to_str`, which is the text of the value or
nothing. -/
structure HeaderValue where
  toStr : Option (List Char)

/-- The answer to the authentication request: its status, and the first value of each header. -/
structure Response where
  status : UInt16
  header : String → Option HeaderValue

/-- The outcome of the authentication handshake; a server rate of zero is unlimited. -/
structure AuthResponse where
  udpEnabled : Bool
  serverRx : UInt64
  rxAuto : Bool
  deriving DecidableEq, Repr

/-- The text of the `Hysteria-CC-RX` header. -/
def ccRx (resp : Response) : Option (List Char) :=
  (resp.header "Hysteria-CC-RX").bind HeaderValue.toStr

/-- `authenticate`, on the answer of the server. -/
def authenticate (resp : Response) : Except Error AuthResponse :=
  if resp.status ≠ statusAuthOk then .error (.authFailed resp.status)
  else
    let udpEnabled := (resp.header "Hysteria-UDP").bind HeaderValue.toStr == some "true".toList
    let (serverRx, rxAuto) := match ccRx resp with
      | some s =>
        if s = "auto".toList then (0, true)
        else (((Text.parseUnsigned (2 ^ 64 - 1) s).map UInt64.ofNat).getD 0, false)
      | none => (0, false)
    .ok ⟨udpEnabled, serverRx, rxAuto⟩

/-! ### The sending rate -/

section Rate

variable {ρ σ : Type} (get : ρ → Duration) (bbr : Library ρ σ) (factory : SwitchableFactory)

/-- The cells that the congestion control of a connection shares: a rate and a flag when an upload
cap is configured, none for BBR alone otherwise. -/
def brutalControl (config : Config) : Option SwitchableFactory :=
  if config.txBps > 0 then some factory else none

/-- The shared cells of a connection with an upload cap, before the handshake. -/
def initialCells (config : Config) (m : Memory) : Memory :=
  (m.storeU64 factory.rate config.txBps).storeBool factory.useBbr false

/-- What `connect` writes to the shared cells after the handshake. -/
def negotiate (config : Config) (auth : AuthResponse) : List (Congestion.Event ρ) :=
  if auth.rxAuto then [.storeUseBbr true]
  else if auth.serverRx > 0 then [.storeRate (min config.txBps auth.serverRx)]
  else []

/-- The controllers of a connection with an upload cap, with the events before and after the end of
the handshake. -/
def connectionRun (config : Config) (auth : AuthResponse) (m : Memory)
    (before after : List (Congestion.Event ρ)) : System σ :=
  System.run get bbr factory (initialCells factory config m)
    (before ++ negotiate config auth ++ after)

/-- The rate that is agreed on. -/
def agreedRate (config : Config) (auth : AuthResponse) : UInt64 :=
  if auth.serverRx = 0 then config.txBps else min config.txBps auth.serverRx

/-- What governs a connection after the handshake. -/
structure NegotiatedControl (config : Config) (resp : Response) (auth : AuthResponse)
    (s : System σ) (rs : List (Record ρ)) : Prop where
  control_eq : brutalControl factory config = some factory
  flag_iff : s.mem.bool factory.useBbr = true ↔ ccRx resp = some "auto".toList
  rate_eq : ccRx resp ≠ some "auto".toList → s.mem.u64 factory.rate = agreedRate config auth
  rate_le : s.mem.u64 factory.rate ≤ config.txBps
  /-- BBR governs if the server answers `auto`. -/
  auto : ccRx resp = some "auto".toList → ∀ (i : ℕ) (c : SwitchableController σ),
    s.controllers[i]? = some c → ∃ r, rs[i]? = some r ∧
      (SwitchableController.controller get bbr).window c s.mem =
        bbr.window (r.bbrAlone bbr) s.mem ∧
      (SwitchableController.controller get bbr).initialWindow c s.mem =
        bbr.initialWindow (r.bbrAlone bbr) s.mem
  /-- Otherwise Brutal governs, at the agreed rate. -/
  fixed : ccRx resp ≠ some "auto".toList → ∀ (i : ℕ) (c : SwitchableController σ),
    s.controllers[i]? = some c → ∃ r, rs[i]? = some r ∧
      (SwitchableController.controller get bbr).window c s.mem =
        (r.brutal get factory).windowAt (agreedRate config auth) ∧
      (SwitchableController.controller get bbr).initialWindow c s.mem =
        (r.brutal get factory).floor

variable {get bbr factory} {config : Config} {resp : Response} {auth : AuthResponse}

/-- The server leaves the rate to the client exactly when it answers `auto`. -/
theorem rxAuto_iff (h : authenticate resp = .ok auth) :
    auth.rxAuto = true ↔ ccRx resp = some "auto".toList := by
  simp only [authenticate] at h
  split_ifs at h with hstatus
  rw [← Except.ok.inj h]
  cases hrx : ccRx resp with
  | none => simp
  | some s =>
    simp only [Option.some.injEq]
    split_ifs with hauto
    · exact iff_of_true rfl hauto
    · exact iff_of_false (by simp) hauto

theorem agreedRate_le (config : Config) (auth : AuthResponse) :
    agreedRate config auth ≤ config.txBps := by
  rw [agreedRate]
  split_ifs with hzero
  · exact UInt64.le_refl _
  · change (if config.txBps ≤ auth.serverRx then config.txBps else auth.serverRx) ≤ config.txBps
    split_ifs with hle
    · exact UInt64.le_refl _
    · exact (UInt64.le_total config.txBps auth.serverRx).resolve_left hle

/-- The shared cells at the end of a run without other writes. -/
theorem mem_connectionRun (m : Memory) {before after : List (Congestion.Event ρ)}
    (hbefore : ∀ e ∈ before, e.stores = false) (hafter : ∀ e ∈ after, e.stores = false) :
    (connectionRun get bbr factory config auth m before after).mem =
      if auth.rxAuto then (initialCells factory config m).storeBool factory.useBbr true
      else if auth.serverRx > 0 then
        (initialCells factory config m).storeU64 factory.rate (min config.txBps auth.serverRx)
      else initialCells factory config m := by
  rw [connectionRun, System.run, List.foldl_append, List.foldl_append,
    mem_foldl_of_not_stores hafter, negotiate]
  split_ifs with hauto hrate
  · simp only [List.foldl_cons, List.foldl_nil, System.step, mem_foldl_of_not_stores hbefore]
  · simp only [List.foldl_cons, List.foldl_nil, System.step, mem_foldl_of_not_stores hbefore]
  · simp only [List.foldl_nil, mem_foldl_of_not_stores hbefore]

/-- A stand-alone Brutal reads the shared rate. -/
theorem window_brutal (r : Record ρ) (m : Memory) :
    (Brutal.controller get).window (r.brutal get factory) m =
      (r.brutal get factory).windowAt (m.u64 factory.rate) := by
  have hrate : (r.brutal get factory).rate = factory.rate := Brutal.rate_feed ..
  rw [← hrate]
  rfl

/-- The flag and the rate at the end of the handshake. -/
theorem cells_connectionRun (m : Memory) {before after : List (Congestion.Event ρ)}
    (hbefore : ∀ e ∈ before, e.stores = false) (hafter : ∀ e ∈ after, e.stores = false) :
    (connectionRun get bbr factory config auth m before after).mem.bool factory.useBbr =
        auth.rxAuto ∧
      (connectionRun get bbr factory config auth m before after).mem.u64 factory.rate =
        if auth.rxAuto then config.txBps else agreedRate config auth := by
  rw [mem_connectionRun m hbefore hafter]
  cases hauto : auth.rxAuto with
  | true => simp [initialCells]
  | false =>
    by_cases hzero : auth.serverRx = 0
    · simp [initialCells, agreedRate, hzero]
    · have hpos : auth.serverRx > 0 := UInt64.pos_iff_ne_zero.2 hzero
      simp [initialCells, agreedRate, hzero, hpos]

/-- Which controller governs a connection after the handshake, and at which rate. -/
theorem negotiatedControl (hbbr : bbr.Copies) (hcap : 0 < config.txBps)
    (h : authenticate resp = .ok auth) (m : Memory) {before after : List (Congestion.Event ρ)}
    (hbefore : ∀ e ∈ before, e.stores = false) (hafter : ∀ e ∈ after, e.stores = false) :
    NegotiatedControl get bbr factory config resp auth
      (connectionRun get bbr factory config auth m before after)
      (Record.run (before ++ negotiate config auth ++ after)) := by
  have hcells : (connectionRun get bbr factory config auth m before after).mem.bool
        factory.useBbr = auth.rxAuto ∧
      (connectionRun get bbr factory config auth m before after).mem.u64 factory.rate =
        if auth.rxAuto then config.txBps else agreedRate config auth :=
    cells_connectionRun m hbefore hafter
  obtain ⟨hflag, hrate⟩ := hcells
  have hauto := rxAuto_iff h
  have hgoverned {i : ℕ} {c : SwitchableController σ}
      (hc : (connectionRun get bbr factory config auth m before after).controllers[i]? = some c) :
      ∃ r, (Record.run (before ++ negotiate config auth ++ after))[i]? = some r ∧
        Governed get bbr factory (connectionRun get bbr factory config auth m before after).mem
          c r :=
    governed_run hbbr _ _ hc
  refine ⟨if_pos hcap, by rw [hflag, hauto], fun hfixed => ?_, ?_, fun hbbrAuto i c hc => ?_,
    fun hfixed i c hc => ?_⟩
  · rw [hrate, if_neg fun hrx => hfixed (hauto.1 hrx)]
  · rw [hrate]
    split_ifs with hrx
    · exact UInt64.le_refl _
    · exact agreedRate_le config auth
  · obtain ⟨r, hr, hwindow, hinitial⟩ := hgoverned hc
    rw [hflag, if_pos (hauto.2 hbbrAuto)] at hwindow hinitial
    exact ⟨r, hr, hwindow, hinitial⟩
  · have hrx : ¬ auth.rxAuto = true := fun hrx => hfixed (hauto.1 hrx)
    obtain ⟨r, hr, hwindow, hinitial⟩ := hgoverned hc
    rw [hflag, if_neg hrx, window_brutal, hrate, if_neg hrx] at hwindow
    rw [hflag, if_neg hrx] at hinitial
    exact ⟨r, hr, hwindow, hinitial⟩

/-- **The switchable controller is faithful.** Whatever the events, the clones and the writes to the
shared cells, the windows of every controller are those of the stand-alone Brutal or BBR that the
flag selects, built with it and fed the same events. So after the handshake BBR governs a connection
with an upload cap exactly if the server answers `auto`, and otherwise Brutal does, at the smaller
of the cap and the rate of the server, or at the cap if the server has no limit. -/
theorem switchable_faithful (get : ρ → Duration) (bbr : Library ρ σ) (hbbr : bbr.Copies)
    (factory : SwitchableFactory) :
    (∀ (m : Memory) (es : List (Congestion.Event ρ)) (i : ℕ) (c : SwitchableController σ),
      (System.run get bbr factory m es).controllers[i]? = some c →
      ∃ r, (Record.run es)[i]? = some r ∧
        Governed get bbr factory (System.run get bbr factory m es).mem c r) ∧
      ∀ (config : Config) (resp : Response) (auth : AuthResponse) (m : Memory)
        (before after : List (Congestion.Event ρ)), 0 < config.txBps →
        authenticate resp = .ok auth → (∀ e ∈ before, e.stores = false) →
        (∀ e ∈ after, e.stores = false) →
        NegotiatedControl get bbr factory config resp auth
          (connectionRun get bbr factory config auth m before after)
          (Record.run (before ++ negotiate config auth ++ after)) :=
  ⟨fun m es _ _ hc => governed_run hbbr m es hc,
    fun _ _ _ m _ _ hcap h hbefore hafter => negotiatedControl hbbr hcap h m hbefore hafter⟩

end Rate

/-- BBR as it is built: its window is the initial one, 200 packets of 1200 bytes. -/
def startupBbr : Library Duration Unit where
  onAck s _ _ _ _ _ := s
  onCongestionEvent s _ _ _ _ := s
  onMtuUpdate s _ := s
  window _ _ := 240000
  cloneBox s := s
  initialWindow _ _ := 240000
  build _ _ := ()

/-- A server that answers `auto`, and a connection whose controller is built and cloned before the
handshake is done. -/
theorem switchable_faithful_auto :
    let config : Config := { txBps := 1000 }
    let resp : Response :=
      ⟨233, fun name => if name = "Hysteria-CC-RX" then some ⟨some "auto".toList⟩ else none⟩
    let auth : AuthResponse := ⟨false, 0, true⟩
    let before : List (Congestion.Event Duration) := [.build 0 0 1200, .cloneBox 0]
    authenticate resp = .ok auth ∧
      NegotiatedControl id startupBbr ⟨0, 0⟩ config resp auth
        (connectionRun id startupBbr ⟨0, 0⟩ config auth ⟨fun _ => 0, fun _ => false⟩ before [])
        (Record.run (before ++ negotiate config auth ++ [])) := by
  intro config resp auth before
  have hauth : authenticate resp = .ok auth := rfl
  refine ⟨hauth, (switchable_faithful id startupBbr (fun _ => rfl) ⟨0, 0⟩).2 config resp auth _
    before [] (by decide) hauth (fun e he => ?_) (fun e he => absurd he List.not_mem_nil)⟩
  simp only [before, List.mem_cons, List.not_mem_nil, or_false] at he
  rcases he with rfl | rfl
  · rfl
  · rfl

end Rsteria.Connect
