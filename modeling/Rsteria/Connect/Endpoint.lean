import Rsteria.Config.Ports
import Rsteria.Connect
import Rsteria.Transport.Hopping

/-!
# The endpoint of a connection

The address that is dialled and the addresses that are hopped between, as the port specification of
the configuration denotes them, and the socket that an endpoint with these addresses uses. If the
specification denotes two or more ports, QUIC sees one address, that of the smallest port, and every
datagram goes to one of the denoted ports; if it denotes one, the socket passes addresses on as they
are (`port_hopping_invisible`). A QUIC endpoint refuses to dial port zero; an address with that
port comes out of the resolution exactly when the specification names it (`dialable_iff`), as do the
two specifications of all ports.

## Main definitions

* `Connect.Dialable` : no address has port zero.

## Main results

* `Connect.resolveEndpoint_spec` : what the resolution of the server address returns.
* `Connect.port_hopping_invisible` : what the socket of an endpoint hands on and reports.
* `Connect.dialable_iff` : when the resolved addresses can be dialled.
-/

namespace Rsteria.Connect

open Protocol Transport

variable {lookupHost : String → UInt16 → Except IoError (List SocketAddr)} {config : Config}
  {canonical : SocketAddr} {hop : Option HopConfig}

/-- What the resolution of the server address returns: the first of the ports at the address of the
host, and all of them for hopping if there are two. -/
theorem resolveEndpoint_spec (h : resolveEndpoint lookupHost config = .ok (canonical, hop)) :
    ∃ spec ports addr rest, portSpec config = .ok spec ∧ parsePorts spec = some ports ∧
      lookupHost config.hostPart canonical.port = .ok (addr :: rest) ∧
      canonical.ip = addr.ip ∧ ports.head? = some canonical.port ∧
      hop = hopConfig config addr.ip ports := by
  rw [resolveEndpoint] at h
  cases hspec : portSpec config with
  | error e =>
    rw [hspec] at h
    exact absurd h (by simp [bind, Except.bind])
  | ok spec =>
    rw [hspec] at h
    simp only [bind, Except.bind] at h
    split at h
    · exact absurd h (by simp)
    · rename_i ports hports
      split at h
      · exact absurd h (by simp)
      · exact absurd h (by simp)
      · rename_i addr rest hlookup
        obtain ⟨rfl, rfl⟩ := Prod.mk.inj (Except.ok.inj h)
        exact ⟨spec, ports, addr, rest, rfl, hports, hlookup, rfl,
          List.head?_eq_some_head _, rfl⟩

/-- The resolution of a server address whose ports are parsed and whose host has an address. -/
theorem resolveEndpoint_eq {spec : String} {port : UInt16} {ports : List UInt16}
    {addr : SocketAddr} {rest : List SocketAddr} (hspec : portSpec config = .ok spec)
    (hports : parsePorts spec = some (port :: ports))
    (hlookup : lookupHost config.hostPart port = .ok (addr :: rest)) :
    resolveEndpoint lookupHost config =
      .ok (⟨addr.ip, port⟩, hopConfig config addr.ip (port :: ports)) := by
  rw [resolveEndpoint, hspec]
  simp only [bind, Except.bind]
  split
  · rename_i hnone
    rw [hports] at hnone
    exact absurd hnone (by simp)
  · rename_i ports' hports'
    obtain rfl : port :: ports = ports' := Option.some.inj (hports.symm.trans hports')
    simp only [List.head_cons, hlookup]

/-- Ports are hopped between exactly when there are two of them. -/
theorem hopConfig_cases (config : Config) (ip : IpAddr) (ports : List UInt16) :
    hopConfig config ip ports = none ∧ ports.length ≤ 1 ∨
      1 < ports.length ∧ ∃ cfg, hopConfig config ip ports = some cfg ∧
        cfg.addrs = ports.map (SocketAddr.mk ip) := by
  by_cases hlen : ports.length ≤ 1
  · exact .inl ⟨if_pos hlen, hlen⟩
  · exact .inr ⟨Nat.lt_of_not_le hlen, _, if_neg hlen, rfl⟩

/-- The first of the ports is the smallest. -/
theorem head_le_of_mem {ports : List UInt16} (hports : ports.Pairwise (· < ·)) {first : UInt16}
    (hfirst : ports.head? = some first) {port : UInt16} (hport : port ∈ ports) : first ≤ port := by
  cases ports with
  | nil => simp at hfirst
  | cons a ports =>
    rw [← Option.some.inj hfirst]
    rcases List.mem_cons.1 hport with rfl | hmem
    · exact UInt16.le_refl _
    · exact UInt16.le_of_lt ((List.pairwise_cons.1 hports).1 port hmem)

/-- Two different ports are denoted exactly when two are parsed. -/
theorem one_lt_length_iff {spec : String} {ports : List UInt16} (h : parsePorts spec = some ports) :
    1 < ports.length ↔ ∃ p q, p ≠ q ∧ Denotes spec p ∧ Denotes spec q := by
  obtain ⟨hmem, hpairwise, -⟩ := parsePorts_spec h
  constructor
  · intro hlen
    match ports, hlen with
    | a :: b :: ports, _ =>
      refine ⟨a, b, ?_, (hmem a).1 (by simp), (hmem b).1 (by simp)⟩
      exact UInt16.ne_of_lt ((List.pairwise_cons.1 hpairwise).1 b List.mem_cons_self)
  · rintro ⟨p, q, hne, hp, hq⟩
    have hp := (hmem p).2 hp
    have hq := (hmem q).2 hq
    match ports with
    | [] => exact absurd hp List.not_mem_nil
    | [a] => exact absurd ((List.mem_singleton.1 hp).trans (List.mem_singleton.1 hq).symm) hne
    | a :: b :: ports => simp

/-- What the configuration of an endpoint promises: what was resolved, and what its socket does in
every run. -/
structure HopsBetween (blake2b256 : Bytes → Digest) (obfs : Option Salamander) (spec : String)
    (ip : IpAddr) (canonical : SocketAddr) (hop : Option HopConfig) : Prop where
  ip_eq : canonical.ip = ip
  denotes : Denotes spec canonical.port
  smallest : ∀ port, Denotes spec port → canonical.port ≤ port
  /-- Two or more ports are hopped between, and QUIC sees the smallest. -/
  hopping : (∃ p q, p ≠ q ∧ Denotes spec p ∧ Denotes spec q) →
    (∃ cfg, hop = some cfg ∧ canonical ∈ cfg.addrs) ∧ ∀ (r : ℕ) (es : List SocketEvent),
      RunSafe blake2b256 obfs (fun _ addr => addr.ip = ip ∧ Denotes spec addr.port)
        (fun _ => canonical) (ObfsHopSocket.new canonical obfs hop r) es
  /-- With one port, addresses pass through. -/
  single : (∃! port, Denotes spec port) → ∀ (r : ℕ) (es : List SocketEvent),
    RunSafe blake2b256 obfs (fun dest addr => addr = dest) id
      (ObfsHopSocket.new canonical obfs hop r) es

section Runs

variable (blake2b256 : Bytes → Digest) (obfs : Option Salamander) (canonical : SocketAddr)

/-- Without hop parameters, addresses pass through. -/
theorem runSafe_none (r : ℕ) (es : List SocketEvent) :
    RunSafe blake2b256 obfs (fun dest addr => addr = dest) id
      (ObfsHopSocket.new canonical obfs none r) es := by
  have hhop (cfg : HopConfig) (h : none = some cfg) : 1 < cfg.addrs.length := nomatch h
  exact runSafe_new blake2b256 canonical obfs hhop r es

/-- With hop parameters for these ports, datagrams go to one of them and come from the canonical
address. -/
theorem runSafe_some {spec : String} {ports : List UInt16} {ip : IpAddr} {cfg : HopConfig}
    (hlen : 1 < ports.length) (hports : ∀ port, port ∈ ports ↔ Denotes spec port)
    (hcfg : cfg.addrs = ports.map (SocketAddr.mk ip)) (r : ℕ) (es : List SocketEvent) :
    RunSafe blake2b256 obfs (fun _ addr => addr.ip = ip ∧ Denotes spec addr.port)
      (fun _ => canonical) (ObfsHopSocket.new canonical obfs (some cfg) r) es := by
  have hhop (cfg' : HopConfig) (heq : some cfg = some cfg') : 1 < cfg'.addrs.length := by
    rw [← Option.some.inj heq, hcfg, List.length_map]
    exact hlen
  refine RunSafe.mono (runSafe_new blake2b256 canonical obfs hhop r es) fun dest addr haddr => ?_
  have haddr : addr ∈ cfg.addrs := haddr
  rw [hcfg] at haddr
  obtain ⟨port, hport, rfl⟩ := List.mem_map.1 haddr
  exact ⟨rfl, (hports port).1 hport⟩

end Runs

/-- **Port hopping is invisible to QUIC** and stays within the configured ports: whatever the hop
task, the sends and the receives are, with or without obfuscation. -/
theorem port_hopping_invisible (blake2b256 : Bytes → Digest) (obfs : Option Salamander)
    (h : resolveEndpoint lookupHost config = .ok (canonical, hop)) :
    ∃ spec addr rest, portSpec config = .ok spec ∧
      lookupHost config.hostPart canonical.port = .ok (addr :: rest) ∧
      HopsBetween blake2b256 obfs spec addr.ip canonical hop := by
  obtain ⟨spec, ports, addr, rest, hspec, hports, hlookup, hip, hhead, rfl⟩ :=
    resolveEndpoint_spec h
  obtain ⟨hmem, hpairwise, -⟩ := parsePorts_spec hports
  have hcanonical : canonical.port ∈ ports := List.mem_of_mem_head? hhead
  refine ⟨spec, addr, rest, hspec, hlookup, hip, (hmem _).1 hcanonical,
    fun port hport => head_le_of_mem hpairwise hhead ((hmem port).2 hport),
    fun htwo => ?_, fun hone r es => ?_⟩
  · have hlen : 1 < ports.length := (one_lt_length_iff hports).2 htwo
    rcases hopConfig_cases config addr.ip ports with ⟨-, hle⟩ | ⟨-, cfg, hcfg, haddrs⟩
    · exact absurd hlen (Nat.not_lt.2 hle)
    · rw [hcfg]
      refine ⟨⟨cfg, rfl, ?_⟩, runSafe_some blake2b256 obfs canonical hlen hmem haddrs⟩
      rw [haddrs, ← hip]
      exact List.mem_map_of_mem hcanonical
  · rcases hopConfig_cases config addr.ip ports with ⟨hnone, -⟩ | ⟨hlen, -⟩
    · rw [hnone]
      exact runSafe_none blake2b256 obfs canonical r es
    · -- Two ports would be denoted.
      obtain ⟨p, q, hne, hp, hq⟩ := (one_lt_length_iff hports).1 hlen
      exact absurd (hone.unique hp hq) hne

/-- A range of two ports. -/
theorem parsePorts_two_ports : parsePorts "2-1" = some [1, 2] := by
  have hfound : parseParts ("2-1".toList.splitOn ',') [] = some [1, 2] := by decide
  have hsort : [1, 2].mergeSort (fun a b : UInt16 => decide (a ≤ b)) = [1, 2] :=
    List.mergeSort_of_pairwise (by decide)
  rw [parsePorts, if_neg (by decide), hfound]
  change some (dedup ([1, 2].mergeSort _)) = _
  rw [hsort]
  rfl

/-- The resolution of a server with two ports. -/
theorem resolveEndpoint_two_ports :
    let lookupHost : String → UInt16 → Except IoError (List SocketAddr) :=
      fun _ port => .ok [⟨.v4 0x7f000001, port⟩]
    let config : Config := { serverAddr := "localhost:443", hopPorts := "2-1" }
    let hop : HopConfig := ⟨[⟨.v4 0x7f000001, 1⟩, ⟨.v4 0x7f000001, 2⟩], 30000, 30000⟩
    resolveEndpoint lookupHost config = .ok (⟨.v4 0x7f000001, 1⟩, some hop) := by
  intro lookupHost config hop
  have hspec : portSpec config = .ok "2-1" := if_pos (by decide)
  have hlookup : lookupHost config.hostPart 1 = .ok [⟨.v4 0x7f000001, 1⟩] := rfl
  have hhop : hopConfig config (.v4 0x7f000001) [1, 2] = some hop := by decide
  rw [← hhop]
  exact resolveEndpoint_eq hspec parsePorts_two_ports hlookup

/-- A server with two ports. -/
theorem port_hopping_invisible_range :
    let lookupHost : String → UInt16 → Except IoError (List SocketAddr) :=
      fun _ port => .ok [⟨.v4 0x7f000001, port⟩]
    let config : Config := { serverAddr := "localhost:443", hopPorts := "2-1" }
    let canonical : SocketAddr := ⟨.v4 0x7f000001, 1⟩
    let hop : HopConfig := ⟨[⟨.v4 0x7f000001, 1⟩, ⟨.v4 0x7f000001, 2⟩], 30000, 30000⟩
    resolveEndpoint lookupHost config = .ok (canonical, some hop) ∧
      ∃ spec addr rest, portSpec config = .ok spec ∧
        lookupHost config.hostPart canonical.port = .ok (addr :: rest) ∧
        HopsBetween (fun _ _ => 0) none spec addr.ip canonical (some hop) := by
  intro lookupHost config canonical hop
  exact ⟨resolveEndpoint_two_ports, port_hopping_invisible _ none resolveEndpoint_two_ports⟩

/-! ### Port zero -/

/-- The address that is dialled and those that are hopped between have a port other than zero. -/
def Dialable (canonical : SocketAddr) (hop : Option HopConfig) : Prop :=
  canonical.port ≠ 0 ∧ ∀ cfg, hop = some cfg → ∀ addr ∈ cfg.addrs, addr.port ≠ 0

/-- The resolved addresses have the parsed ports. -/
theorem dialable_hopConfig_iff {ip : IpAddr} {ports : List UInt16}
    (hhead : ports.head? = some canonical.port) :
    Dialable canonical (hopConfig config ip ports) ↔ 0 ∉ ports := by
  constructor
  · rintro ⟨hcanonical, haddrs⟩ hzero
    rcases hopConfig_cases config ip ports with ⟨-, hle⟩ | ⟨-, cfg, hcfg, heq⟩
    · -- The only port is the one that is dialled.
      match ports, hle with
      | [port], _ =>
        obtain rfl : port = canonical.port := Option.some.inj hhead
        exact hcanonical (List.mem_singleton.1 hzero).symm
    · refine haddrs cfg hcfg ⟨ip, 0⟩ ?_ rfl
      rw [heq]
      exact List.mem_map_of_mem hzero
  · intro hzero
    refine ⟨fun heq => hzero (heq ▸ List.mem_of_mem_head? hhead), ?_⟩
    intro cfg hsome addr haddr heq
    rcases hopConfig_cases config ip ports with ⟨hnone, -⟩ | ⟨-, cfg', hcfg, haddrs⟩
    · rw [hnone] at hsome
      exact absurd hsome (by simp)
    · obtain rfl : cfg' = cfg := Option.some.inj (hcfg.symm.trans hsome)
      rw [haddrs] at haddr
      obtain ⟨port, hport, rfl⟩ := List.mem_map.1 haddr
      exact hzero (heq ▸ hport)

/-- Every resolved address can be dialled exactly when the port specification does not name port
zero; `all` and `*` do. -/
theorem dialable_iff (h : resolveEndpoint lookupHost config = .ok (canonical, hop)) :
    Dialable canonical hop ↔ ∀ spec, portSpec config = .ok spec → ¬ NamesZero spec := by
  obtain ⟨spec, ports, addr, rest, hspec, hports, -, -, hhead, rfl⟩ := resolveEndpoint_spec h
  have hzero : 0 ∈ ports ↔ NamesZero spec := by
    rw [(parsePorts_spec hports).1, denotes_iff, standsFor_zero_iff (by simp [hports])]
  rw [dialable_hopConfig_iff hhead, hzero]
  constructor
  · intro hnames spec' hspec'
    obtain rfl : spec = spec' := Except.ok.inj (hspec.symm.trans hspec')
    exact hnames
  · intro hnames
    exact hnames spec hspec

/-- Both ports of a server can be dialled. -/
theorem dialable_iff_two_ports :
    let config : Config := { serverAddr := "localhost:443", hopPorts := "2-1" }
    let canonical : SocketAddr := ⟨.v4 0x7f000001, 1⟩
    let hop : HopConfig := ⟨[⟨.v4 0x7f000001, 1⟩, ⟨.v4 0x7f000001, 2⟩], 30000, 30000⟩
    Dialable canonical (some hop) ∧ ∀ spec, portSpec config = .ok spec → ¬ NamesZero spec := by
  intro config canonical hop
  have hdialable : Dialable canonical (some hop) := by
    refine ⟨by decide, fun cfg hcfg => ?_⟩
    rw [← Option.some.inj hcfg]
    decide
  exact ⟨hdialable, (dialable_iff resolveEndpoint_two_ports).1 hdialable⟩

/-- With `*`, port zero is dialled. -/
theorem star_dials_zero :
    let lookupHost : String → UInt16 → Except IoError (List SocketAddr) :=
      fun _ port => .ok [⟨.v4 0x7f000001, port⟩]
    let config : Config := { serverAddr := "localhost:443", hopPorts := "*" }
    ∃ hop, resolveEndpoint lookupHost config = .ok (⟨.v4 0x7f000001, 0⟩, hop) ∧
      ¬ Dialable ⟨.v4 0x7f000001, 0⟩ hop := by
  intro lookupHost config
  have hports : parsePorts "*" = some (0 :: (List.range' 1 65535).map UInt16.ofNat) :=
    (if_pos (.inr rfl)).trans (congrArg some (by rw [portRange]; rfl))
  have hspec : portSpec config = .ok "*" := if_pos (by decide)
  have hlookup : lookupHost config.hostPart 0 = .ok [⟨.v4 0x7f000001, 0⟩] := rfl
  exact ⟨_, resolveEndpoint_eq hspec hports hlookup, fun hdialable => hdialable.1 rfl⟩

end Rsteria.Connect
