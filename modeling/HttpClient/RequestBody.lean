import HttpClient.Form
set_option autoImplicit false

namespace HttpClient

inductive RequestBody where
  | empty
  | memory (data : Bytes)
  /-- Chunks as they come. A stated length is announced, and has to be met. -/
  | chunks (pieces : List Bytes) (length : Option Nat)
  | file (f : FileRef)
  | form (f : Form)
  deriving DecidableEq, Repr

/-- The chunks of a body, and the failure that breaks them off. -/
structure BodyStream where
  chunks : List Bytes
  failure : Option IoFailure
  deriving DecidableEq, Repr

namespace RequestBody

def isEmpty : RequestBody → Bool
  | .empty => true
  | _ => false

def declaredLength : RequestBody → Except IoFailure (Option Nat)
  | .empty => .ok (some 0)
  | .memory data => .ok (some data.length)
  | .chunks _ length => .ok length
  | .file f => f.size.map some
  | .form f => f.length.map some

def fields : RequestBody → Except HeadError Fields
  | .form f => do
    f.check
    Fields.empty.append "Content-Type" f.contentType
  | _ => .ok .empty

def segments : RequestBody → List Segment
  | .empty => []
  | .memory data => [.octets data]
  | .chunks pieces _ => pieces.map .octets
  | .file f => [.file f]
  | .form f => f.segments

/-- Chunks are never empty. A missing file breaks the stream off. -/
def streamOf : List Segment → BodyStream
  | [] => ⟨[], none⟩
  | .octets data :: rest =>
    let later := streamOf rest
    if data.isEmpty then later else { later with chunks := data :: later.chunks }
  | .file f :: rest =>
    match f.content with
    | none => ⟨[], some FileRef.missing⟩
    | some data =>
      let later := streamOf rest
      { later with chunks := Bytes.cut FileRef.readSize data ++ later.chunks }

def stream (b : RequestBody) : BodyStream := streamOf b.segments

end RequestBody
end HttpClient
