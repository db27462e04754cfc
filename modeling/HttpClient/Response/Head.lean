import HttpClient.Fields
import HttpClient.Response.Fault
import HttpClient.Version
set_option autoImplicit false

namespace HttpClient

structure StatusLine where
  version : Version
  status : Nat
  reason : String
  deriving DecidableEq, Repr

structure ResponseHead where
  start : StatusLine
  fields : Fields
  deriving DecidableEq, Repr

namespace StatusLine

def readCode (text : List Char) : Except Malformed Nat :=
  match Numeral.read? 10 text with
  | some code =>
    if text.length ≠ 3 then .error (.statusCode (String.ofList text))
    else if 100 ≤ code ∧ code ≤ 599 then .ok code
    else .error (.statusRange code)
  | none => .error (.statusCode (String.ofList text))

def read (line : Bytes) : Except Malformed StatusLine := do
  let text ← (Text.Utf8.decode line).mapError .statusNotUtf8
  let (name, more) := Text.splitFirst ' ' text
  let version ← match Version.ofName? (String.ofList name) with
    | some version => .ok version
    | none => .error (.version (String.ofList name))
  match more with
  | none => .error (.statusLine (String.ofList text))
  | some more =>
    let (code, reason) := Text.splitFirst ' ' more
    let status ← readCode code
    let reason := reason.getD []
    if reason.all isValueChar then .ok ⟨version, status, String.ofList reason⟩
    else .error .reason

end StatusLine

namespace Field

/-- Reads `name: value`. The value goes without the spaces and tabs around it; a line that
continues the one before is refused. -/
def read (line : Bytes) : Except Malformed Field := do
  let text ← (Text.Utf8.decode line).mapError .fieldNotUtf8
  if text.head? = some ' ' ∨ text.head? = some '\t' then .error .foldedField
  else if text.contains '\r' || text.contains '\n' then .error .fieldLineBreak
  else
    match Text.splitFirst ':' text with
    | (_, none) => .error .fieldWithoutColon
    | (name, some value) =>
      let name := String.ofList name
      let value := String.ofList (Text.trimBy (fun c => c = ' ' || c = '\t') value)
      if !isToken name then .error (.fieldName name)
      else if !isValue value then .error .fieldValue
      else .ok ⟨name, value⟩

end Field

namespace ResponseHead

/-- Whether the connection ends with this response: it says so, or it is of version 1.0 and says
nothing about the connection. -/
def mustClose (h : ResponseHead) : Bool :=
  h.fields.hasToken "Connection" "close" ||
    (!h.fields.contains "Connection" && h.start.version == .http10)

end ResponseHead
end HttpClient
