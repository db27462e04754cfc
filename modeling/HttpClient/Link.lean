import HttpClient.Bytes
import HttpClient.IoFailure
set_option autoImplicit false

namespace HttpClient

inductive Dial where
  | pending
  | refused (failure : IoFailure)
  | connected
  deriving DecidableEq, Repr

inductive Ending where
  | closed
  | broken
  deriving DecidableEq, Repr

structure TlsSession where
  serverName : String
  protocol : Option String
  deriving DecidableEq, Repr

structure Link where
  target : String
  dial : Dial
  inbound : Bytes
  ending : Option Ending
  outbound : Bytes
  handshake : Option (Option String)
  deriving DecidableEq, Repr

namespace Link

def broken : IoFailure := ⟨.connectionReset, "connection reset by peer"⟩

def dialed (target : String) : Link := ⟨target, .pending, [], none, [], none⟩

def isQuiet (l : Link) : Bool := l.inbound.isEmpty && l.ending.isNone

theorem isQuiet_iff (l : Link) : l.isQuiet = true ↔ l.inbound = [] ∧ l.ending = none := by
  simp [isQuiet]

/-- Reads up to `quota` octets; none at all means the end. Without a result the reader has to
wait. -/
def read (quota : Nat) (l : Link) : Option (Except IoFailure Bytes) × Link :=
  if l.inbound.isEmpty then
    match l.ending with
    | none => (none, l)
    | some .closed => (some (.ok []), l)
    | some .broken => (some (.error broken), l)
  else (some (.ok (l.inbound.take quota)), { l with inbound := l.inbound.drop quota })

theorem inbound_of_read {quota : Nat} {l m : Link} {data : Bytes}
    (h : l.read quota = (some (.ok data), m)) : l.inbound = data ++ m.inbound := by
  unfold read at h
  split at h
  · next he =>
    split at h <;> simp at h
    obtain ⟨rfl, rfl⟩ := h
    rfl
  · cases h
    exact (List.take_append_drop quota l.inbound).symm

theorem outbound_of_read {quota : Nat} {l m : Link} {result : Option (Except IoFailure Bytes)}
    (h : l.read quota = (result, m)) : m.outbound = l.outbound := by
  unfold read at h
  split at h
  · split at h <;> (cases h; rfl)
  · cases h; rfl

def write (data : Bytes) (l : Link) : Except IoFailure Link :=
  if l.ending = some .broken then .error broken
  else .ok { l with outbound := l.outbound ++ data }

theorem outbound_of_write {data : Bytes} {l m : Link} (h : l.write data = .ok m) :
    m.outbound = l.outbound ++ data := by
  unfold write at h
  split at h
  · cases h
  · cases h; rfl

def deliver (data : Bytes) (l : Link) : Link :=
  if l.ending.isSome then l else { l with inbound := l.inbound ++ data }

def finish (ending : Ending) (l : Link) : Link :=
  { l with ending := l.ending <|> some ending }

end Link
end HttpClient
