import HttpClient.Delivery.Reader
import HttpClient.Pool
set_option autoImplicit false

/-! Responses as the caller gets them: the head at once, the body through a reader. -/

namespace HttpClient

structure Answer where
  start : StatusLine
  fields : Fields
  request : Request
  session : Option TlsSession
  reader : Reader
  deriving DecidableEq, Repr

namespace Answer

def isSuccess (a : Answer) : Bool := 200 ≤ a.start.status && a.start.status < 300

/-- The fields without the codings that can be undone, and the decoders for those. An unreadable
list of codings is left alone. -/
def undoCodings (h : Fields) : Except HeadError (Fields × List Decoder) :=
  match ContentCoding.ofFields h with
  | .ok (some codings) =>
    let (undone, rest) := ContentCoding.split Decoder.supported codings
    if rest = codings then .ok (h, [])
    else
      let decoders := undone.filterMap Decoder.ofCoding?
      if rest.isEmpty then .ok (h.without "Content-Encoding", decoders)
      else (h.set "Content-Encoding" (ContentCoding.render rest)).map fun h => (h, decoders)
  | _ => .ok (h, [])

def ofHead (head : ResponseHead) (bodiless : Bool) (request : Request)
    (session : Option TlsSession) (source : Nat) : Except HeadError Answer := do
  let (fields, decoders) ← if bodiless then pure (head.fields, []) else undoCodings head.fields
  return ⟨head.start, fields, request, session, .ofSource source decoders⟩

end Answer
end HttpClient
