import HttpClient.Exchange
import HttpClient.Redirect
import HttpClient.Scenario.Pooling
set_option autoImplicit false

/-!
A client among scripted far ends. Whatever can happen without the caller happens before the caller
goes on; when nothing can, the caller's signal fires or time passes up to the next timeout.
-/

namespace HttpClient.Scenario

structure Flight where
  exchange : Exchange
  deadline : Option Nat

structure Scene where
  world : World
  flights : List Flight
  interruption : Interruption

namespace Scene

def new (world : World) : Scene := ⟨world, [], .never⟩

def setHub (s : Scene) (hub : Hub) : Scene := { s with world := { s.world with hub := hub } }

def stepFirst (hub : Hub) : List Flight → Option (List Flight × Hub)
  | [] => none
  | f :: fs =>
    match f.exchange.step Exchange.readSize hub with
    | some (x, hub) => some ({ f with exchange := x } :: fs, hub)
    | none => (stepFirst hub fs).map fun (fs, hub) => (f :: fs, hub)

def move (s : Scene) : Option Scene :=
  match stepFirst s.world.hub s.flights with
  | some (flights, hub) => some { s.setHub hub with flights := flights }
  | none => s.world.stir.map fun w => { s with world := w }

/-- A bound on the moves of an exchange that the far ends do not add to. -/
def loadOf (f : Flight) : Nat :=
  let x := f.exchange
  let stage := match x.stage with
    | .finished => 0
    | .writing _ p => p.writes.length
    | .reading _ r => r.parser.buffer.length
    | .parsing _ r data | .offering _ r data => r.parser.buffer.length + data.length
    | _ => (RequestBody.stream x.request.body).chunks.length
  if x.isFinished then 0 else 16 + 2 * stage

def load (s : Scene) : Nat := s.flights.foldr (fun f n => loadOf f + n) 0

def moveAll : Nat → Scene → Scene
  | 0, s => s
  | n + 1, s =>
    match s.move with
    | some s => moveAll n s
    | none => s

def settle (s : Scene) : Scene :=
  moveAll (8 * (s.world.work + s.load + 1)) s

def flight? (s : Scene) (n : Nat) : Option Exchange := (s.flights[n]?).map (·.exchange)

def setExchange (s : Scene) (n : Nat) (x : Exchange) : Scene :=
  { s with flights := s.flights.modify n fun f => { f with exchange := x } }

def cancelOne (s : Scene) (n : Nat) (cause : Cause) : Scene :=
  match s.flight? n with
  | none => s
  | some x =>
    let (x, hub) := x.cancel cause s.world.hub
    (s.setHub hub).setExchange n x

def nextDeadline (s : Scene) : Option Nat :=
  ((s.flights.filter fun f => !f.exchange.isFinished).filterMap (·.deadline)).min?

def passTo (s : Scene) (moment : Nat) : Scene :=
  let s := s.setHub { s.world.hub with now := max s.world.hub.now moment }
  (s.flights.zipIdx.filter fun (f, _) => f.deadline.any (· ≤ moment)).foldl
    (fun s (f, n) => s.cancelOne n (.timeout f.exchange.options.transferTimeoutMs)) s

/-- The caller waits for an exchange, and nothing can happen: its signal fires, or else a timeout
does. -/
def lapse (s : Scene) (n : Nat) : Scene :=
  match s.interruption, s.nextDeadline with
  | .whileWaiting, _ => { s with interruption := .before .cancelled }.cancelOne n .cancelled
  | _, some moment => s.passTo moment
  | _, none => s.cancelOne n .cancelled

def awaitWithin (n : Nat) : Nat → Scene → Except Failure Answer × Scene
  | 0, s => (.error .cancelled, s)
  | fuel + 1, s =>
    let s := s.settle
    match s.flight? n with
    | none => (.error .cancelled, s)
    | some x => match x.mailbox with
      | .filled result => (result, s)
      | _ => awaitWithin n fuel (s.lapse n)

def await (s : Scene) (n : Nat) : Except Failure Answer × Scene :=
  awaitWithin n (s.flights.length + 2) s

def dispatch (o : ClientOptions) (defaults : Fields) (r : Request) (s : Scene) :
    Except Failure Answer × Scene :=
  let n := s.flights.length
  let flight : Flight :=
    ⟨.new n r o defaults, o.timeout.map (s.world.hub.now + ·)⟩
  let s := { s with flights := s.flights ++ [flight] }
  match s.interruption with
  | .before cause => (s.cancelOne n cause).await n
  | _ => s.await n

def leave (s : Scene) (n : Nat) : Scene :=
  match s.flight? n with
  | none => s
  | some x => s.setExchange n x.leave

def effort (s : Scene) : Nat :=
  s.world.work + s.load + s.flights.length +
    s.flights.foldr (fun f n => f.exchange.channel.queue.length + n) 4

def pullWithin : Nat → Reader → Scene → Pull × Reader × Scene
  | 0, r, s => (.wait, r, s)
  | fuel + 1, r, s =>
    match s.flight? r.source with
    | none => (.wait, r, s)
    | some x =>
      match x.pull r with
      | (.wait, r, x) =>
        let s := s.setExchange r.source x
        match s.move with
        | some s => pullWithin fuel r s.settle
        | none => pullWithin fuel r (s.lapse r.source)
      | (pull, r, x) => (pull, r, s.setExchange r.source x)

def pull (s : Scene) (r : Reader) : Pull × Reader × Scene := pullWithin s.effort r s

def readWithin : Nat → Reader → List Bytes → Scene → Except Failure Bytes × Reader × Scene
  | 0, r, _, s => (.error .cancelled, r, s)
  | fuel + 1, r, pieces, s =>
    match s.pull r with
    | (.data piece, r, s) => readWithin fuel r (piece :: pieces) s
    | (.ended, r, s) => (.ok pieces.reverse.flatten, r, s)
    | (.fail failure, r, s) => (.error failure, r, s)
    | (.wait, r, s) => (.error .cancelled, r, s)

def read (s : Scene) (r : Reader) : Except Failure Bytes × Reader × Scene :=
  readWithin s.effort r [] s

def close (s : Scene) (r : Reader) : Scene := (s.leave r.source).settle

/-- Reads a body that nobody wants, so that its connection can be used again. -/
def drain (a : Answer) (s : Scene) : Scene :=
  let (_, r, s) := s.settle.read a.reader
  s.close r

/-- Sends a request and follows redirects. Afterwards the caller's signal may fire. -/
def send (o : ClientOptions) (r : Request) (interruption : Interruption) (s : Scene) :
    Except Failure Reply × Scene :=
  match o.fields with
  | .error error => (.error (.ofOption error), s)
  | .ok defaults =>
    let first := s.flights.length
    match Redirect.follow (dispatch o defaults) drain o r
        { s with interruption := interruption } with
    | (.ok reply, s) =>
      let s :=
        if s.interruption = .afterAnswer then s.cancelOne reply.answer.reader.source .cancelled
        else s
      (.ok reply, { s with interruption := .never }.settle)
    | (.error failure, s) =>
      let s := (List.range s.flights.length).foldl (fun s n => if n < first then s else s.leave n) s
      (.error failure, { s with interruption := .never }.settle)

end Scene
end HttpClient.Scenario
