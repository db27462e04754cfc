import HttpClient.Fields
import HttpClient.Response.Fault
set_option autoImplicit false

/-! Where a body ends, as the Transfer-Encoding and Content-Length fields say. -/

namespace HttpClient

inductive Framing where
  | empty
  | chunked
  | length (n : Nat)
  | untilClose
  deriving DecidableEq, Repr

namespace Framing

/-- Whether the last coding of a list is chunked. Every element names a coding, and chunked occurs
once at most. -/
def endsChunked (seen last : Bool) : List String → Except Malformed Bool
  | [] => .ok last
  | e :: rest =>
    if e.toList.isEmpty then .error .emptyCoding
    else if Text.sameWord e "chunked" then
      if seen then .error .repeatedChunked else endsChunked true true rest
    else endsChunked seen false rest

/-- Nothing if there is no such field, else whether the last coding is chunked. -/
def transferCoding (h : Fields) : Except Malformed (Option Bool) :=
  if (h.values "Transfer-Encoding").isEmpty then .ok none
  else (endsChunked false false (h.elements "Transfer-Encoding")).map some

def commonLength (known : Option Nat) : List String → Except Malformed (Option Nat)
  | [] => .ok known
  | value :: rest =>
    match Numeral.read? 10 (Text.trim value.toList) with
    | none => .error .lengthNotNumber
    | some n =>
      if Numeral.wordLimit < n then .error .lengthOverflow
      else match known with
        | none => commonLength (some n) rest
        | some m => if m ≠ n then .error .lengthMismatch else commonLength (some n) rest

def contentLength (h : Fields) : Except Malformed (Option Nat) :=
  commonLength none (h.values "Content-Length")

/-- Bad fields are an error also where no body is expected. A coding wins over a length; with
neither, the body ends with the connection. -/
def resolve (h : Fields) (bodiless : Bool) : Except Malformed Framing := do
  let coding ← transferCoding h
  let length ← contentLength h
  if bodiless then return .empty
  match coding, length with
  | some true, _ => return .chunked
  | some false, _ => return .untilClose
  | none, some n => return .length n
  | none, none => return .untilClose

end Framing

namespace Chunk

/-- The size that a chunk line names in one to sixteen hexadecimal digits; blanks around them and
an extension after a semicolon are passed over. -/
def readSize (line : Bytes) : Except Malformed Nat :=
  let size := Bytes.trim (line.takeWhile (· != 59))
  match Numeral.read? 16 (size.map Char.ofUInt8) with
  | some n =>
    if size.length ≤ 16 then .ok n
    else .error (.chunkSize (String.ofList (Text.Utf8.decodeLossy size)))
  | none => .error (.chunkSize (String.ofList (Text.Utf8.decodeLossy size)))

/-- Whether an unfinished chunk line is sure to name size 0: zeros, then a carriage return or a
semicolon. -/
def isLastSoFar (line : Bytes) : Bool :=
  let after := line.dropWhile (· == 48)
  line.head? == some 48 && (after.head? == some Bytes.cr || after.head? == some 59)

end Chunk
end HttpClient
