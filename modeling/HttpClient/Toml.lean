import HttpClient.Text.Numeral
set_option autoImplicit false

/-!
Configuration documents: lines `key = value` at top level, with strings, integers, booleans and
arrays as values. Tables have no place in such a document and are refused.
-/

namespace HttpClient.Toml

inductive Value where
  | text (s : String)
  | number (n : Int)
  | flag (b : Bool)
  | list (items : List Value)
  deriving Repr

def isSpace (c : Char) : Bool := c == ' ' || c == '\t'

def skipSpaces (cs : List Char) : List Char := cs.dropWhile isSpace

/-- A comment runs to the end of the line and holds no control character but the tab. -/
def skipComment (cs : List Char) : Option (List Char) :=
  match cs with
  | '#' :: rest =>
    let inside (c : Char) : Bool := c != '\n' && c != '\r'
    if (rest.takeWhile inside).all fun c => c == '\t' || (0x20 ≤ c.toNat && c.toNat != 0x7F) then
      some (rest.dropWhile inside)
    else none
  | cs => some cs

def afterBreak : List Char → Option (List Char)
  | '\n' :: rest => some rest
  | '\r' :: '\n' :: rest => some rest
  | _ => none

def skipLines : Nat → List Char → Option (List Char)
  | 0, cs => some cs
  | fuel + 1, cs => do
    let cs ← skipComment (skipSpaces cs)
    match afterBreak cs with
    | some rest => skipLines fuel rest
    | none => return cs

def readEscape : List Char → Option (Char × List Char)
  | 'b' :: rest => some ('\x08', rest)
  | 't' :: rest => some ('\t', rest)
  | 'n' :: rest => some ('\n', rest)
  | 'f' :: rest => some ('\x0c', rest)
  | 'r' :: rest => some ('\r', rest)
  | '"' :: rest => some ('"', rest)
  | '\\' :: rest => some ('\\', rest)
  | 'u' :: rest => scalar 4 rest
  | 'U' :: rest => scalar 8 rest
  | _ => none
where
  scalar (width : Nat) (cs : List Char) : Option (Char × List Char) := do
    let digits := cs.take width
    let n ← Numeral.read? 16 digits
    if digits.length = width ∧ n.isValidChar then return (Char.ofNat n, cs.drop width) else none

def isLiteralChar (c : Char) : Bool := c == '\t' || (0x20 ≤ c.toNat && c.toNat != 0x7F)

def readBasic : Nat → List Char → Option (List Char × List Char)
  | 0, _ => none
  | fuel + 1, cs =>
    match cs with
    | '"' :: rest => some ([], rest)
    | '\\' :: rest => do
      let (c, rest) ← readEscape rest
      let (s, rest) ← readBasic fuel rest
      return (c :: s, rest)
    | c :: rest =>
      if isLiteralChar c then do
        let (s, rest) ← readBasic fuel rest
        return (c :: s, rest)
      else none
    | [] => none

def readLiteral (cs : List Char) : Option (List Char × List Char) :=
  match cs.dropWhile (· != '\'') with
  | _ :: rest =>
    let s := cs.takeWhile (· != '\'')
    if s.all isLiteralChar then some (s, rest) else none
  | [] => none

def stripUnderscores : List Char → Option (List Char)
  | [] => some []
  | ['_'] => none
  | '_' :: '_' :: _ => none
  | '_' :: rest => stripUnderscores rest
  | c :: rest => (stripUnderscores rest).map (c :: ·)

def readDigits (base : Nat) (cs : List Char) : Option Nat :=
  if cs.head? = some '_' then none else (stripUnderscores cs).bind (Numeral.read? base)

/-- A decimal numeral has no zero in front. -/
def readMagnitude (cs : List Char) : Option Nat :=
  match cs with
  | '0' :: _ :: _ => none
  | cs => readDigits 10 cs

/-- Integers of 64 bits with a sign. A sign goes with decimal digits only. -/
def readNumber (cs : List Char) : Option Int := do
  let n : Int ← match cs with
    | '+' :: rest => (readMagnitude rest).map Int.ofNat
    | '-' :: rest => (readMagnitude rest).map fun n => -Int.ofNat n
    | '0' :: 'x' :: rest => (readDigits 16 rest).map Int.ofNat
    | '0' :: 'o' :: rest => (readDigits 8 rest).map Int.ofNat
    | '0' :: 'b' :: rest => (readDigits 2 rest).map Int.ofNat
    | cs => (readMagnitude cs).map Int.ofNat
  if -9223372036854775808 ≤ n ∧ n ≤ 9223372036854775807 then return n else none

def isWordChar (c : Char) : Bool := c.isAlphanum || c == '_' || c == '+' || c == '-' || c == '.'

def readWord (cs : List Char) : Option (Value × List Char) := do
  let word := cs.takeWhile isWordChar
  let rest := cs.dropWhile isWordChar
  if word = "true".toList then return (.flag true, rest)
  else if word = "false".toList then return (.flag false, rest)
  else return (.number (← readNumber word), rest)

mutual

def readValue : Nat → List Char → Option (Value × List Char)
  | 0, _ => none
  | fuel + 1, cs =>
    match cs with
    | '"' :: rest => do
      let (s, rest) ← readBasic (rest.length + 1) rest
      return (.text (String.ofList s), rest)
    | '\'' :: rest => do
      let (s, rest) ← readLiteral rest
      return (.text (String.ofList s), rest)
    | '[' :: rest => do
      let (items, rest) ← readItems fuel rest
      return (.list items, rest)
    | cs => readWord cs

def readItems : Nat → List Char → Option (List Value × List Char)
  | 0, _ => none
  | fuel + 1, cs => do
    match ← skipLines (cs.length + 1) cs with
    | ']' :: rest => return ([], rest)
    | cs =>
      let (item, rest) ← readValue fuel cs
      match ← skipLines (rest.length + 1) rest with
      | ',' :: rest =>
        let (items, rest) ← readItems fuel rest
        return (item :: items, rest)
      | ']' :: rest => return ([item], rest)
      | _ => none

end

def isKeyChar (c : Char) : Bool := c.isAlphanum || c == '_' || c == '-'

def readKey (cs : List Char) : Option (String × List Char) := do
  match cs with
  | '"' :: rest =>
    let (s, rest) ← readBasic (rest.length + 1) rest
    return (String.ofList s, rest)
  | '\'' :: rest =>
    let (s, rest) ← readLiteral rest
    return (String.ofList s, rest)
  | cs =>
    let name := cs.takeWhile isKeyChar
    if name.isEmpty then none else return (String.ofList name, cs.dropWhile isKeyChar)

abbrev Document := List (String × Value)

def readEntry (cs : List Char) : Option ((String × Value) × List Char) := do
  let (key, rest) ← readKey cs
  match skipSpaces rest with
  | '=' :: rest =>
    let (value, rest) ← readValue (rest.length + 1) (skipSpaces rest)
    return ((key, value), rest)
  | _ => none

/-- The end of a line: a comment perhaps, then a line break or the end of the document. -/
def endLine (cs : List Char) : Option (List Char) := do
  let cs ← skipComment (skipSpaces cs)
  if cs.isEmpty then return [] else afterBreak cs

def readLines : Nat → List Char → Option Document
  | 0, _ => none
  | fuel + 1, cs => do
    let cs ← skipLines (cs.length + 1) cs
    if cs.isEmpty then return []
    let (entry, rest) ← readEntry cs
    let later ← readLines fuel (← endLine rest)
    if later.any (·.1 == entry.1) then none else return entry :: later

def read (s : String) : Option Document := readLines (s.toList.length + 1) s.toList

end HttpClient.Toml
