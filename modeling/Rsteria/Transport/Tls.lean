import Rsteria.Error
import Rsteria.Protocol.Varint

/-!
# Server authentication

`build_client_config` of `src/transport/tls.rs` chooses how the server is verified: by the WebPKI
chain check, not at all, or by a pin on the SHA-256 digest of the leaf certificate, with or without
the chain check. The TLS library is a parameter (`Rustls`): its root store, its chain check and its
check of the handshake signature, and the digest.

A verifier accepts a handshake if it accepts the certificate and the signature. The pinning verifier
leaves the signature to the inner WebPKI verifier, and accepts every signature when there is none,
which is the case for an `insecure` configuration. So a pinned configuration authenticates the peer
of a handshake exactly when it is not `insecure`, or the digest differs, or the signature happens to
be valid (`pin_authenticates_iff`).

## Main definitions

* `Transport.Tls.Rustls`, `Transport.Tls.Handshake` : the library, and what a verifier sees.
* `Transport.Tls.Verifier`, `Transport.Tls.buildClientConfig`.
* `Transport.Tls.Authenticates` : accepting a handshake proves the identity of the peer.

## Main results

* `Transport.Tls.pin_authenticates_iff` : when a pinned configuration authenticates the peer.
-/

namespace Rsteria.Transport.Tls

open Protocol

/-- A SHA-256 digest. -/
abbrev Digest256 := Vector UInt8 32

/-- A certificate in DER encoding. -/
abbrev CertificateDer := Bytes

/-- The version of the handshake whose signature is checked. -/
inductive TlsVersion where
  | tls12
  | tls13
  deriving DecidableEq, Repr

/-- `rustls::DigitallySignedStruct`: the signature scheme, and the signature. -/
structure DigitallySignedStruct where
  scheme : UInt16
  sig : Bytes
  deriving DecidableEq, Repr

/-- `rustls::Error`, as far as the client makes one itself. -/
inductive TlsError where
  | general (text : String)
  | other (text : String)
  deriving DecidableEq, Repr

/-- What is passed to `verify_server_cert`. -/
structure ServerCert where
  endEntity : CertificateDer
  intermediates : List CertificateDer
  serverName : String
  ocsp : Bytes
  now : ℕ
  deriving DecidableEq, Repr

/-- What a verifier sees of a handshake. -/
structure Handshake extends ServerCert where
  version : TlsVersion
  message : Bytes
  dss : DigitallySignedStruct
  deriving DecidableEq, Repr

/-- What the client uses of the TLS library, with root stores of type `Roots`. -/
structure Rustls (Roots : Type) where
  /-- `Sha256::digest`. -/
  sha256 : Bytes → Digest256
  /-- The roots in `webpki_roots`. -/
  systemRoots : Roots
  /-- `rustls_pemfile::certs`. -/
  pemCerts : String → List (Except String CertificateDer)
  /-- `RootCertStore::add`. -/
  addRoot : Roots → CertificateDer → Except String Roots
  /-- `WebPkiServerVerifier::builder(roots).build()`. -/
  buildVerifier : Roots → Except String Unit
  /-- The chain check of `WebPkiServerVerifier` for given roots. -/
  verifyServerCert : Roots → ServerCert → Except TlsError Unit
  /-- Its check of the handshake signature, which does not use the roots. -/
  verifySignature : TlsVersion → Bytes → CertificateDer → DigitallySignedStruct →
    Except TlsError Unit

/-- The verifier that a configuration installs: that of the library, `NoVerify` or `PinVerifier`. -/
inductive Verifier (Roots : Type) where
  | webPki (roots : Roots)
  | noVerify
  | pin (inner : Option Roots) (pinned : Digest256)

/-- `rustls::ClientConfig`, as far as it is set. -/
structure ClientConfig (Roots : Type) where
  verifier : Verifier Roots
  alpnProtocols : List Bytes

variable {Roots : Type} (rustls : Rustls Roots)

/-- `ALPN_H3`. -/
def alpnH3 : Bytes := [0x68, 0x33]

/-- The loop of `build_roots` over the certificates of the PEM text. -/
def addRoots (roots : Roots) : List (Except String CertificateDer) → Except Error Roots
  | [] => .ok roots
  | .error e :: _ => .error (.config ("parse CA PEM: " ++ e))
  | .ok cert :: certs =>
    match rustls.addRoot roots cert with
    | .error e => .error (.config ("add CA: " ++ e))
    | .ok roots => addRoots roots certs

/-- System roots plus any caller-provided PEM CAs. -/
def buildRoots (caPem : String) : Except Error Roots :=
  if caPem.isEmpty then .ok rustls.systemRoots
  else addRoots rustls rustls.systemRoots (rustls.pemCerts caPem)

/-- Build the TLS client configuration. -/
def buildClientConfig (insecure : Bool) (pinSha256 : Option Digest256) (caPem : String) :
    Except Error (ClientConfig Roots) := do
  let roots ← buildRoots rustls caPem
  let verifier ← match insecure, pinSha256 with
    | false, none => .ok (.webPki roots)
    | true, none => .ok .noVerify
    | _, some pin => do
      let inner ← if insecure then .ok none
        else match rustls.buildVerifier roots with
          | .ok () => .ok (some roots)
          | .error e => .error (.config ("build verifier: " ++ e))
      .ok (.pin inner pin)
  .ok { verifier := verifier, alpnProtocols := [alpnH3] }

namespace Verifier

/-- `verify_server_cert`. -/
def verifyServerCert (cert : ServerCert) : Verifier Roots → Except TlsError Unit
  | .webPki roots => rustls.verifyServerCert roots cert
  | .noVerify => .ok ()
  | .pin inner pinned =>
    if rustls.sha256 cert.endEntity ≠ pinned then
      .error (.general "certificate SHA-256 does not match pin")
    else
      match inner with
      | some roots => rustls.verifyServerCert roots cert
      | none => .ok ()

/-- The check of the handshake signature of a given version. -/
def verifySignature (version : TlsVersion) (message : Bytes) (cert : CertificateDer)
    (dss : DigitallySignedStruct) : Verifier Roots → Except TlsError Unit
  | .webPki _ => rustls.verifySignature version message cert dss
  | .noVerify => .ok ()
  | .pin (some _) _ => rustls.verifySignature version message cert dss
  | .pin none _ => .ok ()

/-- `verify_tls12_signature`. -/
def verifyTls12Signature (message : Bytes) (cert : CertificateDer) (dss : DigitallySignedStruct)
    (v : Verifier Roots) : Except TlsError Unit :=
  v.verifySignature rustls .tls12 message cert dss

/-- `verify_tls13_signature`. -/
def verifyTls13Signature (message : Bytes) (cert : CertificateDer) (dss : DigitallySignedStruct)
    (v : Verifier Roots) : Except TlsError Unit :=
  v.verifySignature rustls .tls13 message cert dss

/-- The verifier accepts the certificate and the signature of a handshake. -/
def Accepts (v : Verifier Roots) (h : Handshake) : Prop :=
  v.verifyServerCert rustls h.toServerCert = .ok () ∧
    match h.version with
    | .tls12 => v.verifyTls12Signature rustls h.message h.endEntity h.dss = .ok ()
    | .tls13 => v.verifyTls13Signature rustls h.message h.endEntity h.dss = .ok ()

end Verifier

/-! ### When a pin authenticates the peer -/

/-- The signature checks of the library accept exactly the valid signatures: those made over the
message with the key of the certificate. -/
def SignaturesExact
    (valid : TlsVersion → Bytes → CertificateDer → DigitallySignedStruct → Prop) : Prop :=
  ∀ version message cert dss,
    rustls.verifySignature version message cert dss = .ok () ↔ valid version message cert dss

/-- If a configuration accepts a handshake, the leaf certificate has the pinned digest, the
handshake is signed with its key, and the chain check accepts it unless it is switched off. -/
def Authenticates (valid : TlsVersion → Bytes → CertificateDer → DigitallySignedStruct → Prop)
    (insecure : Bool) (pin : Digest256) (caPem : String) (cfg : ClientConfig Roots)
    (h : Handshake) : Prop :=
  cfg.verifier.Accepts rustls h →
    rustls.sha256 h.endEntity = pin ∧ valid h.version h.message h.endEntity h.dss ∧
      (insecure = false → ∃ roots, buildRoots rustls caPem = .ok roots ∧
        rustls.verifyServerCert roots h.toServerCert = .ok ())

variable {rustls}

theorem Verifier.accepts_iff (v : Verifier Roots) (h : Handshake) :
    v.Accepts rustls h ↔ v.verifyServerCert rustls h.toServerCert = .ok () ∧
      v.verifySignature rustls h.version h.message h.endEntity h.dss = .ok () := by
  rw [Verifier.Accepts]
  cases h.version <;> rfl

/-- The verifier of a pinned configuration. -/
theorem verifier_of_pin {insecure : Bool} {pin : Digest256} {caPem : String}
    {cfg : ClientConfig Roots}
    (hcfg : buildClientConfig rustls insecure (some pin) caPem = .ok cfg) :
    ∃ roots, buildRoots rustls caPem = .ok roots ∧
      cfg.verifier = .pin (if insecure then none else some roots) pin := by
  rw [buildClientConfig] at hcfg
  cases hroots : buildRoots rustls caPem with
  | error e =>
    rw [hroots] at hcfg
    exact absurd hcfg (by simp [bind, Except.bind])
  | ok roots =>
    refine ⟨roots, rfl, ?_⟩
    rw [hroots] at hcfg
    cases insecure with
    | true =>
      simp only [bind, Except.bind, if_true, Except.ok.injEq] at hcfg
      rw [← hcfg]
      rfl
    | false =>
      cases hbuild : rustls.buildVerifier roots with
      | error e =>
        simp [bind, Except.bind, hbuild] at hcfg
      | ok u =>
        simp only [bind, Except.bind, hbuild, Bool.false_eq_true, if_false,
          Except.ok.injEq] at hcfg
        rw [← hcfg]
        rfl

/-- A pin with a chain check accepts exactly what both accept, with a valid signature. -/
theorem accepts_pin_some_iff {roots : Roots} {pin : Digest256} {h : Handshake} :
    (Verifier.pin (some roots) pin).Accepts rustls h ↔ rustls.sha256 h.endEntity = pin ∧
      rustls.verifyServerCert roots h.toServerCert = .ok () ∧
      rustls.verifySignature h.version h.message h.endEntity h.dss = .ok () := by
  rw [Verifier.accepts_iff, Verifier.verifyServerCert, Verifier.verifySignature]
  by_cases hpin : rustls.sha256 h.endEntity = pin <;> simp [hpin]

/-- A pin without a chain check accepts every signature. -/
theorem accepts_pin_none_iff {pin : Digest256} {h : Handshake} :
    (Verifier.pin none pin).Accepts rustls h ↔ rustls.sha256 h.endEntity = pin := by
  rw [Verifier.accepts_iff, Verifier.verifyServerCert, Verifier.verifySignature]
  by_cases hpin : rustls.sha256 h.endEntity = pin <;> simp [hpin]

/-- **When a pinned configuration authenticates the peer.** Accepting a handshake proves that the
peer holds the key of the pinned certificate, if and only if the configuration is not `insecure`, or
the certificate is another one, or the signature is valid. -/
theorem pin_authenticates_iff
    {valid : TlsVersion → Bytes → CertificateDer → DigitallySignedStruct → Prop}
    (hexact : SignaturesExact rustls valid) {insecure : Bool} {pin : Digest256} {caPem : String}
    {cfg : ClientConfig Roots}
    (hcfg : buildClientConfig rustls insecure (some pin) caPem = .ok cfg) (h : Handshake) :
    Authenticates rustls valid insecure pin caPem cfg h ↔
      insecure = false ∨ rustls.sha256 h.endEntity ≠ pin ∨
        valid h.version h.message h.endEntity h.dss := by
  obtain ⟨roots, hroots, hverifier⟩ := verifier_of_pin hcfg
  rw [Authenticates, hverifier]
  cases insecure with
  | false =>
    refine iff_of_true (fun haccept => ?_) (.inl rfl)
    obtain ⟨hpin, hchain, hsig⟩ := accepts_pin_some_iff.1 haccept
    exact ⟨hpin, (hexact _ _ _ _).1 hsig, fun _ => ⟨roots, hroots, hchain⟩⟩
  | true =>
    rw [if_pos rfl, accepts_pin_none_iff]
    constructor
    · intro hauth
      by_cases hpin : rustls.sha256 h.endEntity = pin
      · exact .inr (.inr (hauth hpin).2.1)
      · exact .inr (.inl hpin)
    · rintro (hfalse | hpin | hvalid) haccept
      · exact absurd hfalse (by simp)
      · exact absurd haccept hpin
      · exact ⟨haccept, hvalid, fun hfalse => absurd hfalse (by simp)⟩

/-! ### A configuration that does not authenticate the peer -/

/-- A library whose digest repeats the first bytes of the certificate, and in which a signature is
valid when it repeats the message. -/
def sampleRustls : Rustls Unit where
  sha256 cert := Vector.ofFn fun i => cert.getD i 0
  systemRoots := ()
  pemCerts _ := []
  addRoot _ _ := .ok ()
  buildVerifier _ := .ok ()
  verifyServerCert _ _ := .ok ()
  verifySignature _ message _ dss :=
    if dss.sig = message then .ok () else .error (.other "bad signature")

theorem signaturesExact_sampleRustls :
    SignaturesExact sampleRustls fun _ message _ dss => dss.sig = message := by
  intro version message cert dss
  by_cases h : dss.sig = message <;> simp [sampleRustls, h]

/-- A handshake for the certificate `[1]` with the given signature over the message `[2]`. -/
def sampleHandshake (sig : Bytes) : Handshake where
  endEntity := [1]
  intermediates := []
  serverName := "example.com"
  ocsp := []
  now := 0
  version := .tls13
  message := [2]
  dss := ⟨0x0403, sig⟩

theorem buildClientConfig_sampleRustls (insecure : Bool) (pin : Digest256) :
    buildClientConfig sampleRustls insecure (some pin) "" =
      .ok ⟨.pin (if insecure then none else some ()) pin, [alpnH3]⟩ := by
  cases insecure <;> rfl

/-- A configuration with the chain check authenticates the peer of a forged handshake: it does not
accept it. -/
theorem pin_authenticates_forged_handshake :
    Authenticates sampleRustls (fun _ message _ dss => dss.sig = message) false
      (sampleRustls.sha256 [1]) "" ⟨.pin (some ()) (sampleRustls.sha256 [1]), [alpnH3]⟩
      (sampleHandshake [3]) :=
  (pin_authenticates_iff signaturesExact_sampleRustls
    (buildClientConfig_sampleRustls false (sampleRustls.sha256 [1])) (sampleHandshake [3])).2
    (.inl rfl)

/-- An `insecure` pinned configuration accepts the pinned certificate with a forged signature. -/
theorem insecure_pin_accepts_forged_signature :
    ¬ (∀ (Roots : Type) (rustls : Rustls Roots)
        (valid : TlsVersion → Bytes → CertificateDer → DigitallySignedStruct → Prop)
        (insecure : Bool) (pin : Digest256) (caPem : String) (cfg : ClientConfig Roots),
        SignaturesExact rustls valid →
        buildClientConfig rustls insecure (some pin) caPem = .ok cfg →
        ∀ h, Authenticates rustls valid insecure pin caPem cfg h) ∧
      (Verifier.pin none (sampleRustls.sha256 [1])).Accepts sampleRustls (sampleHandshake [3]) := by
  have haccept : (Verifier.pin none (sampleRustls.sha256 [1])).Accepts sampleRustls
      (sampleHandshake [3]) := accepts_pin_none_iff.2 rfl
  refine ⟨fun h => ?_, haccept⟩
  have hvalid := (h Unit sampleRustls _ true _ "" _ signaturesExact_sampleRustls
    (buildClientConfig_sampleRustls true (sampleRustls.sha256 [1])) (sampleHandshake [3])
    haccept).2.1
  exact absurd hvalid (by decide)

end Rsteria.Transport.Tls
