set_option autoImplicit false

namespace HttpClient

inductive IoKind where
  | notFound
  | connectionReset
  | invalidInput
  | writeZero
  | notConnected
  | other
  deriving DecidableEq, Repr

structure IoFailure where
  kind : IoKind
  text : String
  deriving DecidableEq, Repr

end HttpClient
