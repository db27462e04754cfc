set_option autoImplicit false

namespace HttpClient

/-- A bound of 0 octets on heads or bodies means no bound; a missing count means no bound. -/
structure Limits where
  headBytes : Nat
  fieldCount : Option Nat
  bodyBytes : Nat
  chunkLine : Option Nat
  deriving DecidableEq, Repr

namespace Limits

def standard : Limits := ⟨8192, some 100, 10485760, some 1024⟩

def unlimited : Limits := ⟨0, none, 0, none⟩

def headTooLarge (l : Limits) (size : Nat) : Bool := l.headBytes != 0 && l.headBytes < size

def bodyTooLarge (l : Limits) (size : Nat) : Bool := l.bodyBytes != 0 && l.bodyBytes < size

def exceeded (bound : Option Nat) (count : Nat) : Option Nat := bound.filter (· < count)

end Limits
end HttpClient
