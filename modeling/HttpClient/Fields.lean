import HttpClient.Text.Blank
import HttpClient.Text.Quoted
set_option autoImplicit false

/-!
Header fields: an ordered list of names and values in which a name may occur many times and its
letter case does not count. Every operation that adds a field checks it, so a value that holds a
line break never gets into a list.
-/

namespace HttpClient

inductive HeadError where
  | method (text : String)
  | target (text : String)
  | fieldName (text : String)
  | fieldValue (name : String)
  deriving DecidableEq, Repr

def HeadError.message : HeadError → String
  | .method text => "invalid method: " ++ Text.quoted text
  | .target text => "invalid request target: " ++ Text.quoted text
  | .fieldName text => "invalid header name: " ++ Text.quoted text
  | .fieldValue name => "invalid value for header " ++ Text.quoted name

def isTokenChar (c : Char) : Bool :=
  c.isAlphanum || "!#$%&'*+-.^_\x60|~".toList.contains c

def isToken (s : String) : Bool := !s.toList.isEmpty && s.toList.all isTokenChar

def isValueChar (c : Char) : Bool := c == '\t' || (0x20 ≤ c.toNat && c.toNat != 0x7F)

def isValue (s : String) : Bool := s.toList.all isValueChar

structure Field where
  name : String
  value : String
  deriving DecidableEq, Repr

namespace Field

def named (name : String) (f : Field) : Bool := Text.sameWord f.name name

/-- A field that may be written: its name is a token and its value holds no control character. -/
def check (f : Field) : Except HeadError Unit :=
  if !isToken f.name then .error (.fieldName f.name)
  else if !isValue f.value then .error (.fieldValue f.name)
  else .ok ()

def Valid (f : Field) : Prop := isToken f.name = true ∧ isValue f.value = true

theorem check_eq_ok_iff (f : Field) : f.check = .ok () ↔ f.Valid := by
  unfold check Valid
  by_cases h : isToken f.name <;> by_cases h' : isValue f.value <;> simp [h, h']

end Field

structure Fields where
  entries : List Field
  deriving DecidableEq, Repr

namespace Fields

def empty : Fields := ⟨[]⟩

def count (h : Fields) : Nat := h.entries.length

def values (h : Fields) (name : String) : List String :=
  (h.entries.filter (·.named name)).map (·.value)

def get? (h : Fields) (name : String) : Option String :=
  (h.entries.find? (·.named name)).map (·.value)

def contains (h : Fields) (name : String) : Bool := h.entries.any (·.named name)

def push (h : Fields) (f : Field) : Fields := ⟨h.entries ++ [f]⟩

def append (h : Fields) (name value : String) : Except HeadError Fields := do
  Field.check ⟨name, value⟩
  return h.push ⟨name, value⟩

def ofPairs (pairs : List (String × String)) : Except HeadError Fields :=
  pairs.foldlM (fun h (name, value) => h.append name value) empty

def replaceFirst (name value : String) : List Field → List Field
  | [] => []
  | f :: rest =>
    if f.named name then ⟨f.name, value⟩ :: rest.filter (fun g => !g.named name)
    else f :: replaceFirst name value rest

/-- Leaves one field of a name: in the place and with the spelling of the first, or at the end. -/
def set (h : Fields) (name value : String) : Except HeadError Fields := do
  Field.check ⟨name, value⟩
  if h.contains name then return ⟨replaceFirst name value h.entries⟩
  else return h.push ⟨name, value⟩

def setIfAbsent (h : Fields) (name value : String) : Except HeadError Fields :=
  if h.contains name then .ok h else h.append name value

def without (h : Fields) (name : String) : Fields := ⟨h.entries.filter fun f => !f.named name⟩

def remove (h : Fields) (name : String) : Nat × Fields :=
  (h.count - (h.without name).count, h.without name)

/-- The elements of the comma-separated list that all values of a name form together. -/
def elements (h : Fields) (name : String) : List String :=
  (h.values name).flatMap fun v =>
    (Text.splitOn ',' v.toList).map fun part => String.ofList (Text.trim part)

def hasToken (h : Fields) (name token : String) : Bool :=
  (h.elements name).any fun e => Text.sameWord e token

def mergeMissing (h other : Fields) : Fields :=
  ⟨h.entries ++ other.entries.filter fun f => !h.contains f.name⟩

end Fields
end HttpClient
