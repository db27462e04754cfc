import HttpClient.Options
import HttpClient.Request
import HttpClient.RequestHead
set_option autoImplicit false

/-!
Making a request ready to be written: completing its fields, and choosing how the end of its body
is marked.
-/

namespace HttpClient

inductive PayloadFraming where
  | chunked
  | counted (n : Nat)
  | raw
  deriving DecidableEq, Repr

structure Prepared where
  head : RequestHead
  framing : PayloadFraming
  sendsBody : Bool
  keepAlive : Bool
  deriving DecidableEq, Repr

namespace Prepared

def userAgent : String := "tokio_http1_engine/2026.0.0"

def acceptEncoding : String := "gzip, deflate, identity"

def bodyMethods : List String := ["POST", "PUT", "PATCH"]

def traceStripped : List String :=
  ["Transfer-Encoding", "Content-Length", "Authorization", "Proxy-Authorization", "Cookie"]

def isTrace (method : String) : Bool := Text.sameWord method "TRACE"

def bodyOf (r : Request) : RequestBody := if isTrace r.method then .empty else r.body

def automatic (r : Request) : List (String × String) :=
  (r.hostValue.toList.map fun host => ("Host", host)) ++
    [("User-Agent", userAgent), ("Accept", "*/*"), ("Accept-Encoding", acceptEncoding)]

/-- The request's own fields, then defaults of other names, then the body's and the automatic
ones. -/
def complete (r : Request) (defaults : Fields) : Except HeadError Fields := do
  let brought ← (bodyOf r).fields
  let added := brought.entries.map (fun f => (f.name, f.value)) ++ automatic r
  added.foldlM (fun h (name, value) => h.setIfAbsent name value) (r.fields.mergeMissing defaults)

def readLength (value : String) : Option Nat :=
  let text := Text.trim value.toList
  let digits := match text with
    | '+' :: rest => rest
    | text => text
  (Numeral.read? 10 digits).filter (· ≤ Numeral.wordLimit)

def announce (method : String) (length : Option Nat) (h : Fields) :
    Except HeadError (Fields × PayloadFraming) :=
  match length with
  | some 0 =>
    if bodyMethods.any (Text.sameWord · method) then
      (h.set "Content-Length" "0").map fun h => (h, .counted 0)
    else .ok (h, .counted 0)
  | some n => (h.set "Content-Length" (Numeral.decimal n)).map fun h => (h, .counted n)
  | none => (h.set "Transfer-Encoding" "chunked").map fun h => (h, .chunked)

/-- Chooses the framing. What the caller says about it wins, a transfer coding over a length. -/
def frame (r : Request) (h : Fields) : Except Failure (Fields × PayloadFraming) := do
  if isTrace r.method then return (traceStripped.foldl Fields.without h, .raw)
  if h.contains "Transfer-Encoding" then
    let h := h.without "Content-Length"
    return (h, if h.hasToken "Transfer-Encoding" "chunked" then .chunked else .raw)
  match h.get? "Content-Length" with
  | some value =>
    match readLength value with
    | some n => return (h, .counted n)
    | none => throw (.protocol (.contentLength value))
  | none =>
    let length ← (bodyOf r).declaredLength.mapError .io
    (announce r.method length h).mapError .ofHead

def prepare (r : Request) (version : Version) (defaults : Fields) : Except Failure Prepared := do
  let completed ← (complete r defaults).mapError .ofHead
  let (h, framing) ← frame r completed
  if framing = .chunked ∧ version = .http10 then throw (.protocol .chunkedOverHttp10)
  let head : RequestHead := ⟨r.method, r.target, version, h⟩
  head.check.mapError .ofHead
  return ⟨head, framing, !isTrace r.method, !h.hasToken "Connection" "close"⟩

end Prepared
end HttpClient
