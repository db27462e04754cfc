import HttpClient.Fields
import HttpClient.IoFailure
import HttpClient.Url.Percent
set_option autoImplicit false

/-!
Form bodies: URL-encoded pairs, or parts between delimiter lines as soon as a file is among the
fields.
-/

namespace HttpClient

structure FileRef where
  name : String
  content : Option Bytes
  deriving DecidableEq, Repr

namespace FileRef

def missing : IoFailure := ⟨.notFound, "no such file"⟩

def size (f : FileRef) : Except IoFailure Nat :=
  match f.content with
  | some data => .ok data.length
  | none => .error missing

def readSize : Nat := 8192

end FileRef

inductive Segment where
  | octets (data : Bytes)
  | file (f : FileRef)
  deriving DecidableEq, Repr

namespace Segment

def ofText (s : String) : Segment := .octets (Bytes.ofText s)

def size : Segment → Except IoFailure Nat
  | .octets data => .ok data.length
  | .file f => f.size

end Segment

inductive FormValue where
  | text (s : String)
  | file (f : FileRef)
  deriving DecidableEq, Repr

structure FormField where
  name : String
  value : FormValue
  contentType : String
  deriving DecidableEq, Repr

structure Form where
  fields : List FormField
  boundary : String
  deriving DecidableEq, Repr

namespace FormField

def isFile (f : FormField) : Bool :=
  match f.value with
  | .file _ => true
  | .text _ => false

def fileName (f : FormField) : Option String :=
  match f.value with
  | .file file => some file.name
  | .text _ => none

end FormField

namespace Form

def isBoundaryChar (c : Char) : Bool := c.isAlphanum || "'()+_,-./:=? ".toList.contains c

/-- A boundary has 1 to 70 characters of a small set and does not end in a space. -/
def isBoundary (s : String) : Bool :=
  s.toList.all isBoundaryChar && !s.toList.isEmpty && s.toList.length ≤ 70 &&
    s.toList.getLast? != some ' '

def withBoundary? (boundary : String) : Option Form :=
  if isBoundary boundary then some ⟨[], boundary⟩ else none

def ofSeed (seed : Bytes) : Form :=
  ⟨[], String.ofList <| seed.flatMap fun b =>
    [Numeral.digitChar (b.toNat / 16), Numeral.digitChar (b.toNat % 16)]⟩

def add (f : Form) (field : FormField) : Form := { f with fields := f.fields ++ [field] }

def addText (f : Form) (name value contentType : String) : Form :=
  f.add ⟨name, .text value, contentType⟩

def addFile (f : Form) (name : String) (file : FileRef) (contentType : String) : Form :=
  f.add ⟨name, .file file, contentType⟩

def isMultipart (f : Form) : Bool := f.fields.any (·.isFile)

/-- The boundary goes into quotes unless it is a token. -/
def contentType (f : Form) : String :=
  if !f.isMultipart then "application/x-www-form-urlencoded"
  else if f.boundary.toList.all isTokenChar then "multipart/form-data; boundary=" ++ f.boundary
  else "multipart/form-data; boundary=\"" ++ f.boundary ++ "\""

def texts (f : Form) : List (String × String) :=
  f.fields.filterMap fun field =>
    match field.value with
    | .text s => some (field.name, s)
    | .file _ => none

def addValue (name value : String) : List (String × List String) → List (String × List String)
  | [] => [(name, [value])]
  | (other, values) :: rest =>
    if other = name then (other, values ++ [value]) :: rest
    else (other, values) :: addValue name value rest

/-- Names in the order of their first appearance, each with all its values. -/
def group (pairs : List (String × String)) : List (String × List String) :=
  pairs.foldl (fun groups (name, value) => addValue name value groups) []

def indexed (name : String) (values : List String) : List (String × String) :=
  match values with
  | [value] => [(name, value)]
  | values => values.zipIdx.map fun (value, i) => (name ++ "[" ++ Numeral.decimal i ++ "]", value)

def urlEncoded (f : Form) : String :=
  String.ofList
    (Percent.formPairs ((group f.texts).flatMap fun (name, values) => indexed name values))

def hasLineBreak (s : String) : Bool := s.toList.any fun c => c == '\r' || c == '\n'

def checkPart (field : FormField) : Except HeadError Unit := do
  if hasLineBreak field.name || hasLineBreak (field.fileName.getD "") then
    throw (.fieldValue "Content-Disposition")
  unless field.contentType.toList.isEmpty do
    Field.check ⟨"Content-Type", field.contentType⟩

def check (f : Form) : Except HeadError Unit :=
  if f.isMultipart then f.fields.forM checkPart else .ok ()

def quoteFree (s : String) : String :=
  String.ofList <| s.toList.flatMap fun c => if c = '"' then ['%', '2', '2'] else [c]

def partHeader (field : FormField) : String :=
  let name := "Content-Disposition: form-data; name=\"" ++ quoteFree field.name ++ "\""
  match field.fileName with
  | some file =>
    name ++ "; filename=\"" ++ quoteFree file ++ "\"\r\nContent-Type: " ++ field.contentType ++
      "\r\nContent-Transfer-Encoding: binary\r\n\r\n"
  | none =>
    if field.contentType.toList.isEmpty then name ++ "\r\n\r\n"
    else name ++ "\r\nContent-Type: " ++ field.contentType ++ "\r\n\r\n"

def content (field : FormField) : Segment :=
  match field.value with
  | .text s => .ofText s
  | .file f => .file f

def part (boundary : String) (field : FormField) : List Segment :=
  [.ofText ("--" ++ boundary ++ "\r\n"), .ofText (partHeader field), content field,
    .ofText "\r\n"]

def segments (f : Form) : List Segment :=
  if f.isMultipart then
    f.fields.flatMap (part f.boundary) ++ [.ofText ("--" ++ f.boundary ++ "--\r\n")]
  else [.ofText f.urlEncoded]

def length (f : Form) : Except IoFailure Nat := do
  return (← f.segments.mapM Segment.size).foldr (· + ·) 0

end Form
end HttpClient
