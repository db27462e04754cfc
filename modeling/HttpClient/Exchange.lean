import HttpClient.Acquisition
import HttpClient.Answer
import HttpClient.Payload
set_option autoImplicit false

/-!
One exchange: a request is written on a connection and its response is received. The answer is
there as soon as its head is, and the body follows through a channel. Exchanges go on step by step,
and between two steps others may act: the far ends, other exchanges, the caller, whoever cancels.
Every failure ends an exchange; it reaches the caller with the answer or, after that, with the
body, and the connection is discarded.
-/

namespace HttpClient

structure Plan where
  endpoint : Endpoint
  prepared : Prepared
  deriving DecidableEq, Repr

structure Receipt where
  parser : Parser
  total : Nat
  ended : Bool
  deriving DecidableEq, Repr

inductive Stage where
  | dispatched
  | acquiring (plan : Plan) (acquisition : Acquisition)
  | securing (plan : Plan)
  | writing (plan : Plan) (payload : Payload)
  | reading (plan : Plan) (receipt : Receipt)
  | parsing (plan : Plan) (receipt : Receipt) (data : Bytes)
  | offering (plan : Plan) (receipt : Receipt) (data : Bytes)
  | finished
  deriving DecidableEq, Repr

inductive Mailbox where
  | empty
  | abandoned
  | filled (result : Except Failure Answer)

structure Exchange where
  number : Nat
  request : Request
  options : ClientOptions
  defaults : Fields
  stage : Stage
  retried : Bool
  keepAlive : Bool
  connection : Option Handle
  session : Option TlsSession
  mailbox : Mailbox
  channel : Channel

namespace Exchange

def readSize : Nat := 8192

def new (number : Nat) (request : Request) (options : ClientOptions) (defaults : Fields) :
    Exchange :=
  ⟨number, request, options, defaults, .dispatched, false, false, none, none, .empty,
    .ofCapacity Channel.standardCapacity⟩

def isFinished (x : Exchange) : Bool :=
  match x.stage with
  | .finished => true
  | _ => false

def target (x : Exchange) : String := x.request.url.text

def discardConnection (x : Exchange) (hub : Hub) : Exchange × Hub :=
  match x.connection with
  | none => (x, hub)
  | some h => ({ x with connection := none }, (hub.discard h).2)

def fail (x : Exchange) (failure : Failure) (hub : Hub) : Exchange × Hub :=
  let mailbox := match x.mailbox with
    | .empty => .filled (.error failure)
    | other => other
  { x with stage := .finished, mailbox := mailbox,
           channel := x.channel.fail failure }.discardConnection hub

def abandon (x : Exchange) (hub : Hub) : Exchange × Hub :=
  { x with stage := .finished, channel := x.channel.abandon }.discardConnection hub

def complete (x : Exchange) (reusable : Bool) (hub : Hub) : Exchange × Hub :=
  let x := { x with stage := .finished, channel := x.channel.complete }
  match x.connection with
  | none => (x, hub)
  | some h =>
    ({ x with connection := none }, if reusable then (hub.release h).2 else (hub.discard h).2)

def cancel (x : Exchange) (cause : Cause) (hub : Hub) : Exchange × Hub :=
  if x.isFinished then (x, hub) else x.fail (.ofCause cause x.target) hub

def plan (x : Exchange) : Except Failure Plan := do
  let version ← match Version.negotiate x.request.versions with
    | some version => pure version
    | none => throw (.protocol (.unsupportedVersions x.request.versions))
  let endpoint ← (Endpoint.ofUrl x.request.url).mapError .protocol
  return ⟨endpoint, ← Prepared.prepare x.request version x.defaults⟩

def begin (x : Exchange) (hub : Hub) : Exchange × Hub :=
  match x.plan with
  | .error failure => x.fail failure hub
  | .ok plan =>
    ({ x with stage := .acquiring plan .start, keepAlive := plan.prepared.keepAlive }, hub)

def startWriting (x : Exchange) (plan : Plan) : Exchange :=
  { x with stage := .writing plan (.ofRequest plan.prepared x.request.body) }

def acquire (x : Exchange) (plan : Plan) (a : Acquisition) (hub : Hub) : Option (Exchange × Hub) :=
  match a.step plan.endpoint hub with
  | .wait => none
  | .next a hub => some ({ x with stage := .acquiring plan a }, hub)
  | .fail error hub => some (x.fail (.ofAcquire error x.target) hub)
  | .done h hub =>
    let x := { x with connection := some h, session := h.session }
    some (if plan.endpoint.secure then { x with stage := .securing plan } else x.startWriting plan,
      hub)

def unconnected : Failure := .io ⟨.notConnected, "connection is not available"⟩

def linkOf (x : Exchange) (hub : Hub) : Option (Handle × Nat × Link) := do
  let h ← x.connection
  let (n, l) ← hub.linkOf h
  return (h, n, l)

def secure (x : Exchange) (plan : Plan) (hub : Hub) : Exchange × Hub :=
  match x.linkOf hub with
  | none => x.fail unconnected hub
  | some (h, n, l) =>
    let name := plan.endpoint.serverName
    if h.session.isSome then ({ x with session := h.session }.startWriting plan, hub)
    else match l.handshake with
      | some protocol =>
        if plan.endpoint.namesServer then
          let session := some ⟨name, protocol⟩
          ({ x with
              connection := some { h with transport := some ⟨n, session⟩ },
              session := session }.startWriting plan, hub)
        else { x with connection := some h.detached }.fail (.handshake "invalid server name") hub
      | none => { x with connection := some h.detached }.fail (.handshake "handshake failed") hub

def startReading (x : Exchange) (plan : Plan) : Exchange :=
  { x with stage := .reading plan ⟨.forMethod x.request.method x.options.limits, 0, false⟩ }

def write (x : Exchange) (plan : Plan) (p : Payload) (hub : Hub) : Exchange × Hub :=
  match p.writes, p.failure with
  | [], some failure => x.fail failure hub
  | [], none => (x.startReading plan, hub)
  | data :: rest, _ =>
    match x.linkOf hub with
    | none => x.fail unconnected hub
    | some (_, n, l) => match l.write data with
      | .error failure => x.fail (.io failure) hub
      | .ok l => ({ x with stage := .writing plan { p with writes := rest } }, hub.setLink n l)

/-- The connection ended before a response began. That happens to connections that were idle, so
the request is sent once more, on another one. -/
def retry (x : Exchange) (plan : Plan) (hub : Hub) : Exchange × Hub :=
  { x with stage := .acquiring plan .start, retried := true }.discardConnection hub

/-- What was read goes to the parser; none at all is the end of the stream. -/
def receive (x : Exchange) (plan : Plan) (r : Receipt) (data : Bytes) (hub : Hub) :
    Exchange × Hub :=
  if data.isEmpty then
    if r.parser.state = .awaitingHeaders ∧ r.total = 0 ∧ !x.retried then x.retry plan hub
    else ({ x with stage := .parsing plan { r with parser := r.parser.finish, ended := true } [] },
      hub)
  else ({ x with stage := .parsing plan { r with total := r.total + data.length } data }, hub)

def read (x : Exchange) (quota : Nat) (plan : Plan) (r : Receipt) (hub : Hub) :
    Option (Exchange × Hub) :=
  match x.linkOf hub with
  | none => some (x.fail unconnected hub)
  | some (_, n, l) => match l.read quota with
    | (none, _) => none
    | (some (.error failure), l) => some (x.fail (.io failure) (hub.setLink n l))
    | (some (.ok data), l) => some (x.receive plan r data (hub.setLink n l))

/-- The head of the response is there. The connection is not kept if the response says so or leaves
the protocol. -/
def answer (x : Exchange) (plan : Plan) (r : Receipt) (head : ResponseHead) (bodiless : Bool)
    (hub : Hub) : Exchange × Hub :=
  let x := { x with
    keepAlive := x.keepAlive && !head.mustClose && head.start.status != 101 }
  match Answer.ofHead head bodiless x.request x.session x.number with
  | .error error => x.fail (.ofHead error) hub
  | .ok answer => match x.mailbox with
    | .empty =>
      ({ x with stage := .parsing plan r [], mailbox := .filled (.ok answer) }, hub)
    | _ => x.abandon hub

/-- What a parser says once it knows a body to be over its bound ends the exchange. -/
def takeChunk (x : Exchange) (plan : Plan) (r : Receipt) (data : Bytes) (hub : Hub) :
    Exchange × Hub :=
  if r.parser.overLimit then x.fail (.tooLarge r.parser.limits.bodyBytes) hub
  else if x.options.discardBody then ({ x with stage := .parsing plan r [] }, hub)
  else ({ x with stage := .offering plan r data }, hub)

def broken (r : Receipt) : Failure :=
  if r.parser.state = .awaitingHeaders then .disconnected r.parser.state
  else .incomplete r.parser.state

def reusable (x : Exchange) (r : Receipt) : Bool :=
  x.keepAlive && !r.ended && r.parser.buffer.isEmpty

def parse (x : Exchange) (plan : Plan) (r : Receipt) (data : Bytes) (hub : Hub) : Exchange × Hub :=
  let (result, parser) := r.parser.feed data
  let r := { r with parser := parser }
  match result with
  | .error error => x.fail (.parse error) hub
  | .ok none =>
    if r.ended then x.fail (broken r) hub else ({ x with stage := .reading plan r }, hub)
  | .ok (some (.head head bodiless)) => x.answer plan r head bodiless hub
  | .ok (some (.chunk data)) => x.takeChunk plan r data hub
  | .ok (some (.complete _)) => x.complete (x.reusable r) hub

def offer (x : Exchange) (plan : Plan) (r : Receipt) (data : Bytes) (hub : Hub) :
    Option (Exchange × Hub) :=
  match x.channel.send data with
  | .full => none
  | .refused => some (x.abandon hub)
  | .sent c => some ({ x with stage := .parsing plan r [], channel := c }, hub)

/-- One step, reading up to `quota` octets. There is none when the exchange is finished or has to
wait. -/
def step (x : Exchange) (quota : Nat) (hub : Hub) : Option (Exchange × Hub) :=
  match x.stage with
  | .dispatched => some (x.begin hub)
  | .acquiring plan a => x.acquire plan a hub
  | .securing plan => some (x.secure plan hub)
  | .writing plan p => some (x.write plan p hub)
  | .reading plan r => x.read quota plan r hub
  | .parsing plan r data => some (x.parse plan r data hub)
  | .offering plan r data => x.offer plan r data hub
  | .finished => none

def leave (x : Exchange) : Exchange :=
  match x.mailbox with
  | .empty => { x with mailbox := .abandoned }
  | _ => { x with channel := x.channel.leave }

def pull (x : Exchange) (reader : Reader) : Pull × Reader × Exchange :=
  let (result, reader, channel) := reader.pull x.channel
  (result, reader, { x with channel := channel })

end Exchange
end HttpClient
