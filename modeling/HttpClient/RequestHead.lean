import HttpClient.Bytes
import HttpClient.Fields
import HttpClient.Version
set_option autoImplicit false

namespace HttpClient

structure RequestHead where
  method : String
  target : String
  version : Version
  fields : Fields
  deriving DecidableEq, Repr

namespace RequestHead

/-- A target goes into the request line as it is: no blank, no control character, no fragment. -/
def isTarget (s : String) : Bool :=
  !s.toList.isEmpty && s.toList.all fun c => 0x20 < c.toNat && c.toNat != 0x7F && c != '#'

def check (r : RequestHead) : Except HeadError Unit := do
  unless isToken r.method do throw (.method r.method)
  unless isTarget r.target do throw (.target r.target)
  r.fields.entries.forM Field.check

def startLine (r : RequestHead) : Bytes :=
  Bytes.ofText r.method ++ [32] ++ Bytes.ofText r.target ++ [32] ++ Bytes.ofText r.version.name ++
    Bytes.crlf

def fieldLine (f : Field) : Bytes :=
  Bytes.ofText f.name ++ Bytes.ofText ": " ++ Bytes.ofText f.value ++ Bytes.crlf

def lines (r : RequestHead) : Bytes :=
  r.startLine ++ r.fields.entries.flatMap fieldLine ++ Bytes.crlf

def encode (r : RequestHead) : Except HeadError Bytes := do
  r.check
  return r.lines

def encodeConnect (authority : String) : Except HeadError Bytes := do
  let fields ← Fields.empty.append "Host" authority
  encode ⟨"CONNECT", authority, .http11, fields⟩

end RequestHead

namespace Chunk

/-- A chunk of the chunked framing; an empty one would end the body, so it is not written. -/
def encode (data : Bytes) : Bytes :=
  if data.isEmpty then []
  else Bytes.ofChars (Numeral.print 16 data.length) ++ Bytes.crlf ++ data ++ Bytes.crlf

def last : Bytes := 48 :: Bytes.crlf ++ Bytes.crlf

end Chunk
end HttpClient
