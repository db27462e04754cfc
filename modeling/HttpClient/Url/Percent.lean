import HttpClient.Bytes
import HttpClient.Text.Numeral
set_option autoImplicit false

namespace HttpClient.Percent

def upperDigit (d : Nat) : Char := (Numeral.digitChar d).toUpper

def encodeOctet (b : UInt8) : List Char :=
  ['%', upperDigit (b.toNat / 16), upperDigit (b.toNat % 16)]

def encode (escaped : Char → Bool) (cs : List Char) : List Char :=
  cs.flatMap fun c =>
    if escaped c then (String.utf8EncodeChar c).flatMap encodeOctet else [c]

/-- Replaces escapes by the octets they stand for; what is no escape stays. -/
def decode : Bytes → Bytes
  | [] => []
  | [b] => [b]
  | [b, c] => [b, c]
  | b :: c :: d :: rest =>
    if b = 37 then
      match Numeral.digitValue? (Char.ofUInt8 c), Numeral.digitValue? (Char.ofUInt8 d) with
      | some high, some low => (16 * high + low).toUInt8 :: decode rest
      | _, _ => b :: decode (c :: d :: rest)
    else b :: decode (c :: d :: rest)

/-- Control characters and everything outside ASCII: escaped wherever anything is. -/
def control (c : Char) : Bool := c.toNat < 0x20 || 0x7F ≤ c.toNat

def inFragment (c : Char) : Bool := control c || " \"<>\x60".toList.contains c

def inQuery (c : Char) : Bool := control c || " \"#<>".toList.contains c

/-- The query of a special scheme also escapes the apostrophe. -/
def inSpecialQuery (c : Char) : Bool := inQuery c || c == '\''

def inPath (c : Char) : Bool := inQuery c || "?^\x60\x7b\x7d".toList.contains c

def inUserinfo (c : Char) : Bool := inPath c || "/:;=@[\\]|".toList.contains c

def unreserved (c : Char) : Bool := c.isAlphanum || "*-._".toList.contains c

def encodeForm (s : String) : List Char :=
  s.toList.flatMap fun c =>
    if c = ' ' then ['+'] else encode (fun c => !unreserved c) [c]

def formPairs (pairs : List (String × String)) : List Char :=
  ['&'].intercalate (pairs.map fun (name, value) => encodeForm name ++ '=' :: encodeForm value)

end HttpClient.Percent
