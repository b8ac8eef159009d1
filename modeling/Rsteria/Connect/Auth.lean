import Rsteria.Connect
import Rsteria.Lib.Fallible
import Rsteria.Protocol.TcpRequest

/-!
# The authentication exchange

`authenticate` of `src/connect.rs` as a whole: the request that the client builds, what the HTTP
libraries answer at each step, and the validation of the response. The libraries are given by their
answers, which depend on the request; a call of them returns, fails with the text of its error, or
panics.

The client sends one request or none, and takes only the response to this request
(`authentication_exchange`). The rate is written in decimal, and what `authenticate` reads from a
number of this kind in a response is the number (`parseUnsigned_toDigits`). The padding is ASCII, so
the client itself does not panic.

## Main definitions

* `Connect.Panic` : where the client panics.
* `Connect.Request`, `Connect.authRequest`, `Connect.authRequestPadding`.
* `Connect.H3`, `Connect.authenticateOver` : the HTTP libraries, and the whole exchange.
* `Connect.Asks` : a request says what the configuration says.
* `Connect.Answered` : the libraries took a request, and answered it with a response.

## Main results

* `Connect.authRequestPadding_eq` : the padding is a text.
* `Connect.authentication_exchange` : what is sent, and when the exchange succeeds.
-/

namespace Rsteria.Connect

open Protocol

/-- Where the client panics. -/
inductive Panic where
  /-- `parse_pin` slices the text of a pin inside a character. -/
  | pinSlice
  /-- `expect("valid idle timeout")`. -/
  | idleTimeout
  /-- `expect("alphanumeric is valid utf8")`. -/
  | padding
  /-- A call of a library panics, with a message. -/
  | library (text : String)
  deriving DecidableEq, Repr

/-- `http::Method`, as far as it is used. -/
inductive Method where
  | post
  deriving DecidableEq, Repr

/-- An HTTP request without a body. -/
structure Request where
  method : Method
  uri : String
  headers : List (String × Bytes)
  deriving DecidableEq, Repr

/-- `auth_request_padding`; `none` if the padding is not UTF-8. -/
def authRequestPadding (r : ℕ) (draws : ℕ → ℕ) : Option String :=
  stringFromUtf8 (randomPadding 256 2048 r draws)

/-- The request for `POST https://hysteria/auth`. -/
def authRequest (auth : String) (rxBps : UInt64) (padding : String) : Request where
  method := .post
  uri := "https://hysteria/auth"
  headers :=
    [("Host", utf8Bytes "hysteria"),
      ("Hysteria-Auth", utf8Bytes auth),
      ("Hysteria-CC-RX", utf8Bytes (toString rxBps.toNat)),
      ("Hysteria-Padding", utf8Bytes padding)]

/-- The answers of the HTTP libraries on a connection. -/
structure H3 where
  /-- `h3::client::new`. -/
  newClient : Fallible String String Unit
  /-- The builder of `http::Request`, which refuses values that cannot stand in a header. -/
  build : Request → Except String Unit
  sendRequest : Request → Fallible String String Unit
  finish : Request → Fallible String String Unit
  recvResponse : Request → Fallible String String Response

/-- Send a request and validate the response to it. -/
def exchange (h3 : H3) (req : Request) : Fallible Panic Error AuthResponse := do
  (h3.sendRequest req).mapFailure .library .h3Stream
  (h3.finish req).mapFailure .library .h3Stream
  let resp ← (h3.recvResponse req).mapFailure .library .h3Stream
  Fallible.ofExcept id (authenticate resp)

/-- `authenticate`: the result, and the requests that were sent. -/
def authenticateOver (h3 : H3) (auth : String) (rxBps : UInt64) (r : ℕ) (draws : ℕ → ℕ) :
    Fallible Panic Error AuthResponse × List Request :=
  match h3.newClient with
  | .panic text => (.panic (.library text), [])
  | .error text => (.error (.h3Connection text), [])
  | .ok () =>
    match authRequestPadding r draws with
    | none => (.panic .padding, [])
    | some padding =>
      let req := authRequest auth rxBps padding
      match h3.build req with
      | .error text => (.error (.protocol ("build auth request: " ++ text)), [])
      | .ok () => (exchange h3 req, [req])

/-! ### Texts -/

theorem utf8EncodeChar_of_lt {c : Char} (h : c.toNat < 128) :
    String.utf8EncodeChar c = [UInt8.ofNat c.toNat] := by
  have hval : c.val.toNat ≤ 0x7f := by
    change c.toNat ≤ 127
    omega
  simp only [String.utf8EncodeChar, hval, if_true]
  rfl

/-- The bytes of an ASCII text are its characters. -/
theorem utf8Bytes_ofList {cs : List Char} (h : ∀ c ∈ cs, c.toNat < 128) :
    utf8Bytes (String.ofList cs) = cs.map fun c => UInt8.ofNat c.toNat := by
  induction cs with
  | nil => rfl
  | cons c cs ih =>
    have hc := h c List.mem_cons_self
    have ih := ih fun d hd => h d (List.mem_cons_of_mem c hd)
    rw [utf8Bytes, String.toByteArray_ofList] at ih ⊢
    rw [List.utf8Encode_cons, List.utf8Encode_singleton, utf8EncodeChar_of_lt hc]
    simp only [ByteArray.data_append, Array.toList_append, ih, List.data_toByteArray, List.map_cons]
    rfl

theorem toNat_charOfNat {n : ℕ} (h : n < 128) : (Char.ofNat n).toNat = n := by
  have hvalid : n.isValidChar := .inl (by omega)
  rw [Char.ofNat, dif_pos hvalid]
  exact UInt32.toNat_ofNatLT

/-- Bytes that are all ASCII are a text. -/
theorem exists_stringFromUtf8 {bytes : Bytes} (h : ∀ b ∈ bytes, b.toNat < 128) :
    ∃ s, stringFromUtf8 bytes = some s := by
  refine ⟨String.ofList (bytes.map fun b => Char.ofNat b.toNat), stringFromUtf8_eq_some_iff.2 ?_⟩
  rw [utf8Bytes_ofList, List.map_map]
  · refine (List.map_congr_left fun b hb => ?_).trans (List.map_id _)
    rw [Function.comp_apply, toNat_charOfNat (h b hb)]
    exact UInt8.ofNat_toNat
  · intro c hc
    obtain ⟨b, hb, rfl⟩ := List.mem_map.1 hc
    rw [toNat_charOfNat (h b hb)]
    exact h b hb

/-- The number that is written in decimal is read back. -/
theorem parseUnsigned_toDigits {max n : ℕ} (h : n ≤ max) :
    Text.parseUnsigned max (Nat.toDigits 10 n) = some n := by
  have hvalue : Text.value (Nat.toDigits 10 n) = n := by
    have hdigits := Nat.ofDigitChars_toDigits (b := 10) (n := n) (by omega) (by omega)
    rw [Nat.ofDigitChars_eq_foldl] at hdigits
    simpa only [Text.value, Nat.mul_comm] using hdigits
  refine Text.parseUnsigned_eq_some_iff.2 ⟨⟨[], Nat.toDigits 10 n, rfl, .inl rfl,
    Nat.toDigits_ne_nil, fun c hc => ?_, hvalue⟩, h⟩
  exact Nat.isDigit_of_mem_toDigits (by omega) (by omega) hc

/-! ### The padding -/

theorem length_randomPadding_auth (r : ℕ) (draws : ℕ → ℕ) :
    (randomPadding 256 2048 r draws).length = 256 + r % 1792 := by
  rw [randomPadding, List.length_map, List.length_range]
  rfl

theorem isAsciiAlphanumeric_randomPadding {lo hi r : ℕ} {draws : ℕ → ℕ} {b : UInt8}
    (hb : b ∈ randomPadding lo hi r draws) : isAsciiAlphanumeric b = true := by
  obtain ⟨i, -, rfl⟩ := List.mem_map.1 hb
  exact isAsciiAlphanumeric_paddingChars _ (List.get_mem _ _)

theorem toNat_lt_of_isAsciiAlphanumeric {b : UInt8} (h : isAsciiAlphanumeric b = true) :
    b.toNat < 128 := by
  simp only [isAsciiAlphanumeric, Bool.or_eq_true, Bool.and_eq_true, decide_eq_true_eq,
    UInt8.le_iff_toNat_le] at h
  simp only [UInt8.reduceToNat] at h
  omega

/-- The padding is a text, so building it does not panic. -/
theorem authRequestPadding_eq (r : ℕ) (draws : ℕ → ℕ) :
    ∃ padding, authRequestPadding r draws = some padding ∧
      utf8Bytes padding = randomPadding 256 2048 r draws := by
  obtain ⟨padding, hpadding⟩ := exists_stringFromUtf8 fun b hb =>
    toNat_lt_of_isAsciiAlphanumeric (isAsciiAlphanumeric_randomPadding hb)
  exact ⟨padding, hpadding, stringFromUtf8_eq_some_iff.1 hpadding⟩

/-! ### The exchange -/

/-- A request says what the configuration says, and nothing else. -/
structure Asks (auth : String) (rxBps : UInt64) (req : Request) : Prop where
  target : req.method = .post ∧ req.uri = "https://hysteria/auth"
  names : req.headers.map Prod.fst =
    ["Host", "Hysteria-Auth", "Hysteria-CC-RX", "Hysteria-Padding"]
  /-- The password is sent as it is. -/
  auth : ("Hysteria-Auth", utf8Bytes auth) ∈ req.headers
  /-- The rate is read back from its header. -/
  rate : ∃ text, ("Hysteria-CC-RX", utf8Bytes (String.ofList text)) ∈ req.headers ∧
    Text.parseUnsigned (2 ^ 64 - 1) text = some rxBps.toNat
  padding : ∃ value, ("Hysteria-Padding", value) ∈ req.headers ∧ 256 ≤ value.length ∧
    value.length ≤ 2047 ∧ ∀ b ∈ value, isAsciiAlphanumeric b = true

/-- The libraries took a request, and answered it with a response. -/
structure Answered (h3 : H3) (req : Request) (resp : Response) : Prop where
  built : h3.build req = .ok ()
  sent : h3.sendRequest req = .ok ()
  finished : h3.finish req = .ok ()
  received : h3.recvResponse req = .ok resp

/-- A call of the HTTP libraries panics. -/
inductive H3.Panics (h3 : H3) (text : String) : Prop where
  | newClient (h : h3.newClient = .panic text) : h3.Panics text
  | sendRequest (req : Request) (h : h3.sendRequest req = .panic text) : h3.Panics text
  | finish (req : Request) (h : h3.finish req = .panic text) : h3.Panics text
  | recvResponse (req : Request) (h : h3.recvResponse req = .panic text) : h3.Panics text

theorem asks_authRequest (auth : String) (rxBps : UInt64) {r : ℕ} {draws : ℕ → ℕ}
    {padding : String} (hpadding : utf8Bytes padding = randomPadding 256 2048 r draws) :
    Asks auth rxBps (authRequest auth rxBps padding) where
  target := ⟨rfl, rfl⟩
  names := rfl
  auth := by simp [authRequest]
  rate := by
    refine ⟨Nat.toDigits 10 rxBps.toNat, ?_, ?_⟩
    · rw [← Nat.toString_eq_ofList_toDigits]
      simp [authRequest]
    · exact parseUnsigned_toDigits (Nat.le_pred_of_lt rxBps.toNat_lt)
  padding := by
    refine ⟨utf8Bytes padding, by simp [authRequest], ?_⟩
    rw [hpadding, length_randomPadding_auth]
    have hmod := Nat.mod_lt r (show 0 < 1792 by omega)
    exact ⟨by omega, by omega, fun b hb => isAsciiAlphanumeric_randomPadding hb⟩

theorem status_of_authenticate {resp : Response} {a : AuthResponse}
    (h : authenticate resp = .ok a) : resp.status = 233 := by
  by_contra hne
  have hstatus : resp.status ≠ statusAuthOk := hne
  rw [authenticate, if_pos hstatus] at h
  exact absurd h (by simp)

theorem exchange_eq_ok_iff {h3 : H3} {req : Request} {a : AuthResponse} :
    exchange h3 req = .ok a ↔ ∃ resp, h3.sendRequest req = .ok () ∧ h3.finish req = .ok () ∧
      h3.recvResponse req = .ok resp ∧ authenticate resp = .ok a := by
  simp only [exchange, Fallible.bind_eq_ok_iff, Fallible.mapFailure_eq_ok_iff,
    Fallible.ofExcept_eq_ok_iff]
  constructor
  · rintro ⟨⟨⟩, hsend, ⟨⟩, hfinish, resp, hresp, ha⟩
    exact ⟨resp, hsend, hfinish, hresp, ha⟩
  · rintro ⟨resp, hsend, hfinish, hresp, ha⟩
    exact ⟨(), hsend, (), hfinish, resp, hresp, ha⟩

/-- Only the libraries panic in an exchange. -/
theorem panics_of_exchange {h3 : H3} {req : Request} {p : Panic}
    (h : exchange h3 req = .panic p) : ∃ text, p = .library text ∧ h3.Panics text := by
  simp only [exchange, Fallible.bind_eq_panic_iff, Fallible.mapFailure_eq_panic_iff,
    Fallible.ofExcept_ne_panic, and_false, exists_false, or_false] at h
  rcases h with ⟨text, hsend, rfl⟩ | ⟨-, -, ⟨text, hfinish, rfl⟩ | ⟨-, -, text, hresp, rfl⟩⟩
  · exact ⟨text, rfl, .sendRequest req hsend⟩
  · exact ⟨text, rfl, .finish req hfinish⟩
  · exact ⟨text, rfl, .recvResponse req hresp⟩

/-- **The authentication exchange.** Whatever the libraries answer: at most one request is sent,
which says what the configuration says; the exchange succeeds only on a response of status 233 to
the request that was sent; and it panics only where a library does. -/
theorem authentication_exchange (h3 : H3) (auth : String) (rxBps : UInt64) (r : ℕ)
    (draws : ℕ → ℕ) :
    let (result, sent) := authenticateOver h3 auth rxBps r draws
    (sent = [] ∨ ∃ req, sent = [req] ∧ Asks auth rxBps req) ∧
      (∀ a, result = .ok a → ∃ req resp, sent = [req] ∧ Asks auth rxBps req ∧
        Answered h3 req resp ∧ resp.status = 233 ∧ authenticate resp = .ok a) ∧
      ∀ p, result = .panic p → ∃ text, p = .library text ∧ h3.Panics text := by
  obtain ⟨padding, hpadding, hbytes⟩ := authRequestPadding_eq r draws
  have hasks := asks_authRequest auth rxBps hbytes
  rw [authenticateOver]
  cases hnew : h3.newClient with
  | panic text =>
    refine ⟨.inl rfl, fun a ha => absurd ha (by simp), fun p hp => ?_⟩
    exact ⟨text, (Fallible.panic.inj hp).symm, .newClient hnew⟩
  | error text => exact ⟨.inl rfl, fun a ha => absurd ha (by simp), fun p hp => absurd hp (by simp)⟩
  | ok u =>
    simp only [hpadding]
    cases hbuild : h3.build (authRequest auth rxBps padding) with
    | error text =>
      exact ⟨.inl rfl, fun a ha => absurd ha (by simp), fun p hp => absurd hp (by simp)⟩
    | ok u =>
      refine ⟨.inr ⟨_, rfl, hasks⟩, fun a ha => ?_, fun p hp => panics_of_exchange hp⟩
      obtain ⟨resp, hsend, hfinish, hresp, haccepted⟩ := exchange_eq_ok_iff.1 ha
      exact ⟨_, resp, rfl, hasks, ⟨hbuild, hsend, hfinish, hresp⟩,
        status_of_authenticate haccepted, haccepted⟩

/-- If the libraries answer at every step, the exchange ends with the validation of the response. -/
theorem authenticateOver_of_ok {h3 : H3} (hnew : h3.newClient = .ok ())
    (hbuild : ∀ req, h3.build req = .ok ()) (hsend : ∀ req, h3.sendRequest req = .ok ())
    (hfinish : ∀ req, h3.finish req = .ok ()) {resp : Response}
    (hresp : ∀ req, h3.recvResponse req = .ok resp) {a : AuthResponse}
    (ha : authenticate resp = .ok a) (auth : String) (rxBps : UInt64) (r : ℕ) (draws : ℕ → ℕ) :
    (authenticateOver h3 auth rxBps r draws).1 = .ok a := by
  obtain ⟨padding, hpadding, -⟩ := authRequestPadding_eq r draws
  simp only [authenticateOver, hnew, hpadding, hbuild]
  exact exchange_eq_ok_iff.2 ⟨resp, hsend _, hfinish _, hresp _, ha⟩

end Rsteria.Connect
