import HttpClient.Fields
set_option autoImplicit false

/-! The codings of a body that the Content-Encoding fields list in the order of application. -/

namespace HttpClient

inductive ContentCoding where
  | gzip
  | deflate
  | identity
  | other (name : String)
  deriving DecidableEq, Repr

inductive CodingError where
  | empty
  | notToken
  deriving DecidableEq, Repr

def CodingError.message : CodingError → String
  | .empty => "empty Content-Encoding"
  | .notToken => "invalid Content-Encoding token"

namespace ContentCoding

def name : ContentCoding → String
  | .gzip => "gzip"
  | .deflate => "deflate"
  | .identity => "identity"
  | .other name => name

def ofLower (s : String) : ContentCoding :=
  if s = "gzip" ∨ s = "x-gzip" then .gzip
  else if s = "deflate" then .deflate
  else if s = "identity" then .identity
  else .other s

def read (s : String) : Except CodingError ContentCoding :=
  if isToken s then .ok (ofLower (Text.lower s)) else .error .notToken

/-- Reads a list of codings. Empty elements do not count, but a list needs one element. -/
def readElements (elements : List String) : Except CodingError (List ContentCoding) := do
  match ← (elements.filter fun e => !e.toList.isEmpty).mapM read with
  | [] => throw .empty
  | codings => return codings

def readList (value : String) : Except CodingError (List ContentCoding) :=
  readElements ((Text.splitOn ',' value.toList).map fun part => String.ofList (Text.trim part))

/-- The codings of a message; nothing when the field is missing. Several fields are one list. -/
def ofFields (h : Fields) : Except CodingError (Option (List ContentCoding)) :=
  let values := h.values "Content-Encoding"
  if values.isEmpty then .ok none else (readList (",".intercalate values)).map some

def render (codings : List ContentCoding) : String := ", ".intercalate (codings.map name)

def removable (supported : List ContentCoding) (c : ContentCoding) : Bool :=
  c == .identity || supported.contains c

/-- The codings to undo, outermost first, and those that stay on the body. -/
def split (supported codings : List ContentCoding) : List ContentCoding × List ContentCoding :=
  let outermost := codings.reverse
  ((outermost.takeWhile (removable supported)).filter (· != .identity),
    (outermost.dropWhile (removable supported)).reverse)

end ContentCoding
end HttpClient
