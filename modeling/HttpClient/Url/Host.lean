import HttpClient.Text.Blank
import HttpClient.Text.Utf8
import HttpClient.Url.Percent
set_option autoImplicit false

namespace HttpClient

inductive UrlError where
  | relativeWithoutBase
  | relativeToFlatBase
  | emptyHost
  | domain
  | hostCharacter
  | port
  | ipv4
  | ipv6
  deriving DecidableEq, Repr

def UrlError.message : UrlError → String
  | .relativeWithoutBase => "relative URL without a base"
  | .relativeToFlatBase => "relative URL with a cannot-be-a-base base"
  | .emptyHost => "empty host"
  | .domain => "invalid international domain name"
  | .hostCharacter => "invalid domain character"
  | .port => "invalid port number"
  | .ipv4 => "invalid IPv4 address"
  | .ipv6 => "invalid IPv6 address"

namespace Host

def ipv4Part (cs : List Char) : Option Nat :=
  match cs with
  | [] => none
  | '0' :: x :: rest =>
    if x = 'x' ∨ x = 'X' then if rest.isEmpty then some 0 else Numeral.read? 16 rest
    else Numeral.read? 8 (x :: rest)
  | cs => Numeral.read? 10 cs

def dottedParts (cs : List Char) : List (List Char) :=
  let parts := Text.splitOn '.' cs
  if 1 < parts.length ∧ parts.getLast? = some [] then parts.dropLast else parts

/-- A name whose last part is a number has to be an address. -/
def endsInNumber (cs : List Char) : Bool :=
  match (dottedParts cs).getLast? with
  | none | some [] => false
  | some part => part.all Char.isDigit || (part.head? == some '0' && (ipv4Part part).isSome)

/-- The last part fills all the octets that are left. -/
def ipv4Value (count : Nat) : List Nat → Option Nat
  | [] => none
  | [last] => if last < 256 ^ (5 - count) then some last else none
  | n :: rest => do
    if n < 256 then return n * 256 ^ (4 - (count - rest.length)) + (← ipv4Value count rest)
    else none

def ipv4Text (value : Nat) : String :=
  ".".intercalate ([value / 16777216, value / 65536 % 256, value / 256 % 256, value % 256].map
    Numeral.decimal)

def readIpv4 (cs : List Char) : Option String := do
  let parts := dottedParts cs
  if 4 < parts.length then none
  else
    let numbers ← parts.mapM ipv4Part
    let value ← ipv4Value numbers.length numbers
    return ipv4Text value

def ipv6Group (cs : List Char) : Option Nat :=
  if cs.length ≤ 4 then Numeral.read? 16 cs else none

def octetPart (cs : List Char) : Option Nat := do
  let n ← Numeral.read? 10 cs
  if n < 256 ∧ (cs.length = 1 ∨ cs.head? ≠ some '0') then return n else none

/-- Groups between colons; the last may be a dotted address that makes two. -/
def ipv6Groups (parts : List (List Char)) : Option (List Nat) :=
  match parts with
  | [] => some []
  | [last] =>
    if last.contains '.' then
      match (Text.splitOn '.' last).mapM octetPart with
      | some [a, b, c, d] => some [a * 256 + b, c * 256 + d]
      | _ => none
    else (ipv6Group last).map ([·])
  | part :: rest => do return (← ipv6Group part) :: (← ipv6Groups rest)

def splitGap : List Char → Option (List Char × List Char)
  | [] => none
  | c :: rest =>
    if c = ':' ∧ rest.head? = some ':' then some ([], rest.tail)
    else (splitGap rest).map fun (front, back) => (c :: front, back)

def groupsOf (cs : List Char) : Option (List Nat) :=
  if cs.isEmpty then some [] else ipv6Groups (Text.splitOn ':' cs)

/-- The eight groups of an address; a double colon stands for the zeros that are missing. -/
def readIpv6Groups (cs : List Char) : Option (List Nat) := do
  match splitGap cs with
  | none =>
    let groups ← groupsOf cs
    if groups.length = 8 then return groups else none
  | some (front, back) =>
    if front.contains '.' then none
    else
      let front ← groupsOf front
      let back ← groupsOf back
      if front.length + back.length < 8 then
        return front ++ List.replicate (8 - (front.length + back.length)) 0 ++ back
      else none

def zeros (groups : List Nat) : Nat := (groups.takeWhile (· == 0)).length

def longestZeros : (position : Nat) → List Nat → Nat × Nat
  | _, [] => (0, 0)
  | position, g :: rest =>
    let (start, length) := longestZeros (position + 1) rest
    let here := zeros (g :: rest)
    if length ≤ here then (position, here) else (start, length)

def groupTexts (groups : List Nat) : List Char :=
  [':'].intercalate (groups.map (Numeral.print 16))

def ipv6Text (groups : List Nat) : String :=
  let (start, length) := longestZeros 0 groups
  String.ofList <|
    if length < 2 then groupTexts groups
    else groupTexts (groups.take start) ++ [':', ':'] ++ groupTexts (groups.drop (start + length))

def readIpv6 (cs : List Char) : Except UrlError String :=
  match readIpv6Groups cs with
  | some groups => .ok ("[" ++ ipv6Text groups ++ "]")
  | none => .error .ipv6

def bracketed (cs : List Char) : Option (Except UrlError (List Char)) :=
  match cs with
  | '[' :: rest =>
    if rest.getLast? = some ']' then some (.ok rest.dropLast) else some (.error .ipv6)
  | _ => none

def forbidden (c : Char) : Bool := "\x00\t\n\r #/:<>?@[\\]^|".toList.contains c

def forbiddenInDomain (c : Char) : Bool :=
  forbidden c || c.toNat < 0x20 || c == '%' || 0x7F ≤ c.toNat

/-- The host of a special scheme: an address, or a name of ASCII characters in lower case. -/
def readDomain (cs : List Char) : Except UrlError String :=
  match bracketed cs with
  | some (.error e) => .error e
  | some (.ok inner) => readIpv6 inner
  | none =>
    let name := Text.Utf8.decodeLossy (Percent.decode (Bytes.ofChars cs))
    if name.any forbiddenInDomain then .error .domain
    else if name.isEmpty then .error .emptyHost
    else
      let name := name.map Char.toLower
      if endsInNumber name then
        match readIpv4 name with
        | some address => .ok address
        | none => .error .ipv4
      else .ok (String.ofList name)

def readForeign (cs : List Char) : Except UrlError String :=
  match bracketed cs with
  | some (.error e) => .error e
  | some (.ok inner) => readIpv6 inner
  | none =>
    if cs.any forbidden then .error .hostCharacter
    else .ok (String.ofList (Percent.encode Percent.control cs))

end Host
end HttpClient
