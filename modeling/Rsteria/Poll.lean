/-!
# Results of polled operations

The asynchronous operations of the client are polled: an answer is `pending`, or `ready` with a
value or an I/O error. The kinds of error are those of `std::io` that the modelled code produces or
passes on; the message is the text that the code gives to `io::Error::new`.
-/

namespace Rsteria

/-- `std::task::Poll`. -/
inductive Poll (α : Type) where
  | ready (a : α)
  | pending
  deriving DecidableEq, Repr

/-- `std::io::ErrorKind`, as far as the client produces it or receives it from the transport. -/
inductive ErrorKind where
  | connectionRefused
  | connectionReset
  | notConnected
  | wouldBlock
  | invalidInput
  | invalidData
  | unexpectedEof
  | other
  deriving DecidableEq, Repr

/-- `std::io::Error`. -/
structure IoError where
  kind : ErrorKind
  message : String
  deriving DecidableEq, Repr

end Rsteria
