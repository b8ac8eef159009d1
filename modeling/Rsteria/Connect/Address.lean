import Rsteria.Connect

/-!
# The server address

The server address joins a host and a port specification by a `:`. It is taken apart in two places:
`host_part` of `src/config.rs` is the host that is looked up and, if no server name is configured,
the name for TLS; `resolve_endpoint` of `src/connect.rs` takes the port specification. Both cut at
the last `:`, so they find the two parts whenever there is none in the port specification.

An IPv6 literal is written in brackets in front of a `:`, since there is a `:` in the literal
itself. The brackets belong to the notation and not to the host: name resolution and TLS take the
literal without them. The cut leaves them on, so taking apart undoes joining exactly for the other
hosts (`undoes_iff`).

## Main definitions

* `Connect.ServerConfig.resolvedServerName`.
* `Connect.Host`, `Connect.Host.join` : hosts, and the address that is joined from one.
* `Connect.Undoes` : taking the address apart undoes joining it.

## Main results

* `Connect.undoes_iff` : for which hosts it does.
-/

namespace Rsteria.Connect

open Transport

/-- The configuration with the server name, which only the choice of the name for TLS reads. -/
structure ServerConfig extends Config where
  serverName : String := ""

/-- The name of the server for TLS: the host of the server address if none is configured. -/
def ServerConfig.resolvedServerName (config : ServerConfig) : String :=
  if config.serverName ≠ "" then config.serverName else config.hostPart

/-! ### Hosts -/

/-- The host of a server. -/
inductive Host where
  /-- A DNS name or an IPv4 literal. -/
  | name (text : String) (h : ':' ∉ text.toList)
  /-- An IPv6 literal. -/
  | ipv6 (literal : String) (h : ':' ∈ literal.toList)

namespace Host

/-- The host as name resolution and TLS take it. -/
def plain : Host → String
  | name text _ => text
  | ipv6 literal _ => literal

/-- The host as it is written in front of a port: an IPv6 literal stands in brackets. -/
def text : Host → String
  | name text _ => text
  | ipv6 literal _ => "[" ++ literal ++ "]"

/-- The server address with this host and port specification. -/
def join (host : Host) (spec : String) : String := host.text ++ ":" ++ spec

def IsIpv6 : Host → Prop
  | name _ _ => False
  | ipv6 _ _ => True

end Host

variable {config : Config} {host : Host} {spec : String}

/-! ### Taking the address apart -/

/-- The host that `resolve_endpoint` looks up: it is the host of the address, and the answers of the
name resolution for another one make no difference. -/
def LooksUp (config : Config) (name : String) : Prop :=
  config.hostPart = name ∧ ∀ lookupHost lookupHost' : String → UInt16 →
    Except IoError (List SocketAddr), lookupHost name = lookupHost' name →
      resolveEndpoint lookupHost config = resolveEndpoint lookupHost' config

/-- Taking the server address apart undoes joining it: the host that is looked up, the default name
for TLS and the port specification are those that were joined, and an address of a host alone, with
hop ports, is that host. -/
structure Undoes (host : Host) (spec : String) : Prop where
  joined : ∀ config : ServerConfig, config.serverAddr = host.join spec → config.hopPorts = "" →
    config.serverName = "" → LooksUp config.toConfig host.plain ∧
      config.resolvedServerName = host.plain ∧ portSpec config.toConfig = .ok spec
  alone : ∀ config : Config, config.serverAddr = host.text → config.hopPorts ≠ "" →
    LooksUp config host.plain

/-- The host of the address is looked up, and no other. -/
theorem looksUp_hostPart (config : Config) : LooksUp config config.hostPart := by
  refine ⟨rfl, fun lookupHost lookupHost' heq => ?_⟩
  rw [resolveEndpoint, resolveEndpoint, heq]

theorem looksUp_iff {name : String} : LooksUp config name ↔ config.hostPart = name := by
  refine ⟨And.left, ?_⟩
  rintro rfl
  exact looksUp_hostPart config

/-- The last `:` of a joined address is the one in front of the port specification. -/
theorem rsplitOnce_join (hspec : ':' ∉ spec.toList) (host : Host) :
    Text.rsplitOnce ':' (host.join spec).toList = some (host.text.toList, spec.toList) := by
  have hjoin : (host.join spec).toList = host.text.toList ++ ':' :: spec.toList := by
    simp [Host.join]
  rw [hjoin, Text.rsplitOnce_append hspec]

theorem hostPart_join (haddr : config.serverAddr = host.join spec) (hspec : ':' ∉ spec.toList) :
    config.hostPart = host.text := by
  rw [Config.hostPart, haddr, rsplitOnce_join hspec]
  exact String.ofList_toList

theorem portSpec_join (haddr : config.serverAddr = host.join spec) (hspec : ':' ∉ spec.toList)
    (hports : config.hopPorts = "") : portSpec config = .ok spec := by
  rw [portSpec, if_neg (by simp [hports]), haddr, rsplitOnce_join hspec]
  simp

/-- An address without a `:` is a host. -/
theorem hostPart_of_notMem (haddr : ':' ∉ config.serverAddr.toList) :
    config.hostPart = config.serverAddr := by
  rw [Config.hostPart, Text.rsplitOnce_of_notMem haddr]

/-- A host without a `:` is found again. -/
theorem undoes_name {text : String} (htext : ':' ∉ text.toList) (hspec : ':' ∉ spec.toList) :
    Undoes (.name text htext) spec := by
  refine ⟨fun config haddr hports hname => ?_, fun config haddr _ => ?_⟩
  · have hhost : config.hostPart = text := hostPart_join haddr hspec
    refine ⟨looksUp_iff.2 hhost, ?_, portSpec_join haddr hspec hports⟩
    rw [ServerConfig.resolvedServerName, if_neg (by simp [hname])]
    exact hhost
  · have haddr : config.serverAddr = text := haddr
    exact looksUp_iff.2 ((hostPart_of_notMem (haddr ▸ htext)).trans haddr)

/-- An IPv6 literal comes back in its brackets. -/
theorem not_undoes_ipv6 {literal : String} (hliteral : ':' ∈ literal.toList)
    (hspec : ':' ∉ spec.toList) : ¬ Undoes (.ipv6 literal hliteral) spec := by
  intro hundoes
  let config : ServerConfig := { serverAddr := (Host.ipv6 literal hliteral).join spec }
  have haddr : config.serverAddr = (Host.ipv6 literal hliteral).join spec := rfl
  obtain ⟨hlooks, -⟩ := hundoes.joined config haddr rfl rfl
  have hkept : "[" ++ literal ++ "]" = literal := (hostPart_join haddr hspec).symm.trans hlooks.1
  have hlen := congrArg (·.toList.length) hkept
  simp only [String.toList_append, List.length_append] at hlen
  change 1 + literal.toList.length + 1 = literal.toList.length at hlen
  omega

/-- Taking the address apart undoes joining it exactly if the host is not an IPv6 literal. -/
theorem undoes_iff (hspec : ':' ∉ spec.toList) : Undoes host spec ↔ ¬ host.IsIpv6 := by
  cases host with
  | name text htext => exact iff_of_true (undoes_name htext hspec) id
  | ipv6 literal hliteral =>
    exact iff_of_false (not_undoes_ipv6 hliteral hspec) (not_not.2 trivial)

/-- A DNS name and one port. -/
theorem undoes_example_com :
    let host : Host := .name "example.com" (by decide)
    ¬ host.IsIpv6 ∧ ':' ∉ "443".toList ∧ Undoes host "443" := by
  intro host
  exact ⟨id, by decide, (undoes_iff (by decide)).2 id⟩

/-- The loopback address of IPv6 keeps its brackets. -/
theorem ipv6_keeps_brackets :
    let host : Host := .ipv6 "::1" (by decide)
    let config : ServerConfig := { serverAddr := "[::1]:443" }
    host.join "443" = config.serverAddr ∧ ':' ∉ "443".toList ∧ config.hostPart = "[::1]" ∧
      config.resolvedServerName = "[::1]" ∧ ¬ Undoes host "443" := by
  intro host config
  exact ⟨by decide, by decide, by decide, by decide, not_undoes_ipv6 _ (by decide)⟩

end Rsteria.Connect
