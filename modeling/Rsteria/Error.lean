import Rsteria.Poll

/-!
# Errors of the client

`Error` of `src/error.rs`. An error that wraps one of the QUIC, TLS or HTTP/3 libraries carries the
text that the wrapped error displays.
-/

namespace Rsteria

/-- The error type of the client. -/
inductive Error where
  | io (e : IoError)
  | config (text : String)
  | tls (text : String)
  | connect (text : String)
  | connection (text : String)
  | h3Connection (text : String)
  | h3Stream (text : String)
  | authFailed (status : UInt16)
  | tcpRejected (text : String)
  | protocol (text : String)
  deriving DecidableEq, Repr

end Rsteria
