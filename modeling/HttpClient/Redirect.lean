import HttpClient.Answer
import HttpClient.Options
import HttpClient.Url.Reader
set_option autoImplicit false

namespace HttpClient

/-- The last answer of a chain, and those before it, the latest first. Their bodies are gone. -/
structure Reply where
  answer : Answer
  previous : List Answer
  deriving DecidableEq, Repr

namespace Reply

def firstRequest (r : Reply) : Request := (r.previous.getLastD r.answer).request

def redirectCount (r : Reply) : Nat := r.previous.length

end Reply

namespace Redirect

def statuses : List Nat := [301, 302, 303, 307, 308]

/-- Where an answer sends the request: the first Location, read against the answered URL. -/
def location (a : Answer) : Option Url := do
  guard (statuses.contains a.start.status)
  let text ← a.fields.get? "Location"
  let u ← (a.request.url.join text).toOption
  guard (u.scheme = "http" ∨ u.scheme = "https")
  return u.withoutFragment

def becomesGet (status : Nat) (method : String) : Bool :=
  let head := Text.sameWord method "HEAD"
  if status = 303 then !head
  else if status = 301 ∨ status = 302 then !head && !Text.sameWord method "GET"
  else false

def asGet (r : Request) : Request :=
  ["Content-Length", "Transfer-Encoding", "Content-Type"].foldl Request.withoutField
    { r with method := "GET", body := .empty }

def withoutHostFields (r : Request) : Request :=
  ["Host", "Authorization", "Cookie"].foldl Request.withoutField r

def sameHost (u v : Url) : Bool := u.hostText == v.hostText && u.effectivePort == v.effectivePort

/-- Names the answered URL, without what is private to it, unless that would leave a secure
connection. -/
def withReferer (r : Request) (sender : Url) (auto : Bool) : Request :=
  if auto && !(sender.scheme == "https" && r.url.scheme == "http") then
    match r.addField "Referer" sender.withoutFragment.withoutCredentials.text with
    | .ok r => r
    | .error _ => r
  else r

/-- The request that follows an answer, if the answer sends somewhere else. -/
def next (a : Answer) (autoReferer : Bool) : Option Request := do
  let target ← location a
  let sender := a.request.url
  let r := { a.request with url := target }
  let r := if becomesGet a.start.status r.method then asGet r else r
  let r := if sameHost sender target then r else withoutHostFields r
  return withReferer (r.withoutField "Referer") sender autoReferer

/-- Follows redirects, at most `left` more of them. The body of an answer is read to its end before
the next request goes out. -/
def followFrom {σ : Type} (dispatch : Request → σ → Except Failure Answer × σ)
    (drain : Answer → σ → σ) (o : ClientOptions) (left : Nat) (previous : List Answer)
    (r : Request) (s : σ) : Except Failure Reply × σ :=
  match dispatch r s with
  | (.error failure, s) => (.error failure, s)
  | (.ok a, s) =>
    if o.maxRedirects = 0 then (.ok ⟨a, previous⟩, s)
    else match next a o.autoReferer, left with
      | none, _ => (.ok ⟨a, previous⟩, s)
      | some _, 0 => (.error (.tooManyRedirects o.maxRedirects), s)
      | some r, left + 1 => followFrom dispatch drain o left (a :: previous) r (drain a s)

def follow {σ : Type} (dispatch : Request → σ → Except Failure Answer × σ)
    (drain : Answer → σ → σ) (o : ClientOptions) (r : Request) (s : σ) :
    Except Failure Reply × σ :=
  followFrom dispatch drain o o.maxRedirects [] r s

end Redirect
end HttpClient
