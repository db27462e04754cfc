import HttpClient.Failure
import HttpClient.Link
import HttpClient.RequestHead
import HttpClient.Response.Drain
set_option autoImplicit false

namespace HttpClient.Tunnel

def readSize : Nat := 1024

def reader : Parser := Parser.forMethod "CONNECT" .standard

def request (authority : String) : Except TunnelError Bytes :=
  (RequestHead.encodeConnect authority).mapError fun _ => .authority authority

def ask (authority : String) (l : Link) : Except TunnelError Link := do
  let data ← request authority
  (l.write data).mapError .write

def status? : Event → Option Nat
  | .head head _ => some head.start.status
  | _ => none

def accept (p : Parser) (data : Bytes) : Except TunnelError (Option Parser) :=
  let (events, error, q) := p.drain data
  match events.findSome? status?, error with
  | some 200, _ => .ok none
  | some status, _ => .error (.status status)
  | none, some error => .error (.malformed error)
  | none, none => .ok (some q)

inductive Move where
  | wait
  | next (parser : Parser) (link : Link)
  | done (link : Link)
  | fail (error : TunnelError) (link : Link)
  deriving DecidableEq, Repr

/-- Reads once. What follows the head in the same read is lost. -/
def step (p : Parser) (l : Link) : Move :=
  match l.read readSize with
  | (none, _) => .wait
  | (some (.error failure), l) => .fail (.read failure) l
  | (some (.ok []), l) => .fail .closed l
  | (some (.ok data), l) =>
    match accept p data with
    | .error error => .fail error l
    | .ok none => .done l
    | .ok (some p) => .next p l

end HttpClient.Tunnel
