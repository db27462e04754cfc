import HttpClient.Prepared
set_option autoImplicit false

/-!
Writing a request body. The last chunk is marked together with the data before it, so each chunk is
written only when it is known what follows, and a chunk that would break the promised length is
never written, nor is the one before it.
-/

namespace HttpClient

/-- Stretches to write one after another, and the failure that follows them. -/
structure Payload where
  writes : List Bytes
  failure : Option Failure
  deriving DecidableEq, Repr

namespace Payload

def write (data : Bytes) (p : Payload) : Payload := { p with writes := data :: p.writes }

def frame (framing : PayloadFraming) (data : Bytes) : Bytes :=
  if framing = .chunked then Chunk.encode data else data

def ending (framing : PayloadFraming) : Bytes := if framing = .chunked then Chunk.last else []

/-- The octets that may still follow, if there is a bound. -/
def allowance (framing : PayloadFraming) : Option Nat :=
  match framing with
  | .counted n => some n
  | _ => none

def close (framing : PayloadFraming) (held : Option Bytes) (left : Option Nat)
    (failure : Option IoFailure) : Payload :=
  match failure with
  | some failure => ⟨[], some (.io failure)⟩
  | none =>
    let last := held.elim [] (frame framing) ++ ending framing
    ⟨if last.isEmpty then [] else [last],
      if left.any (0 < ·) then some (.protocol .bodyTooShort) else none⟩

def ofChunks (framing : PayloadFraming) (failure : Option IoFailure) (held : Option Bytes)
    (left : Option Nat) : List Bytes → Payload
  | [] => close framing held left failure
  | chunk :: rest =>
    if left.any (· < chunk.length) then ⟨[], some (.protocol .bodyTooLong)⟩
    else
      let later := ofChunks framing failure (some chunk) (left.map (· - chunk.length)) rest
      match held with
      | some data => later.write (frame framing data)
      | none => later

def ofStream (framing : PayloadFraming) (stream : BodyStream) : Payload :=
  ofChunks framing stream.failure none (allowance framing) stream.chunks

def ofRequest (p : Prepared) (body : RequestBody) : Payload :=
  (if p.sendsBody then ofStream p.framing body.stream else ⟨[], none⟩).write p.head.lines

end Payload
end HttpClient
