import HttpClient.Acquisition
import HttpClient.Prepared
set_option autoImplicit false

/-!
Far ends that follow a script. Together with the hub they make a closed world, in which it is
determined what happens next: each far end answers one request after another, and says nothing
after its last reply.
-/

namespace HttpClient.Scenario

structure PeerReply where
  parts : List Bytes
  closes : Bool
  raw : Bool
  /-- The link breaks, and nothing is sent. -/
  breaks : Bool
  deriving DecidableEq, Repr

inductive Welcome where
  | refuses
  | stalls
  | accepts
  deriving DecidableEq, Repr

structure Peer where
  welcome : Welcome
  handshake : Option (Option String)
  replies : List PeerReply
  seen : Nat
  parts : List Bytes
  closes : Bool
  deriving DecidableEq, Repr

namespace Peer

def new (welcome : Welcome) (handshake : Option (Option String)) (replies : List PeerReply) :
    Peer :=
  ⟨welcome, handshake, replies, 0, [], false⟩

def absent : Peer := new .refuses none []

def splitHead (bs : Bytes) : Option (List Bytes × Bytes) :=
  match _h : Bytes.splitLine bs with
  | none => none
  | some ([], rest) => some ([], rest)
  | some (line, rest) => (splitHead rest).map fun (lines, after) => (line :: lines, after)
termination_by bs.length
decreasing_by have := Bytes.length_of_splitLine _h; omega

def chunkedLength (bs : Bytes) : Option Nat :=
  let p : Parser := { Parser.new .unlimited with phase := .chunkSize }
  match p.drain bs with
  | (_, none, q) => if q.state = .complete then some (bs.length - q.buffer.length) else none
  | (_, some _, _) => none

def fieldsOf (lines : List Bytes) : Fields :=
  ⟨lines.filterMap fun line => (Field.read line).toOption⟩

def requestLength (bs : Bytes) : Option Nat := do
  let (lines, rest) ← splitHead bs
  let h := fieldsOf (lines.drop 1)
  let body ←
    if h.hasToken "Transfer-Encoding" "chunked" then chunkedLength rest
    else
      let n := ((h.get? "Content-Length").bind Prepared.readLength).getD 0
      if n ≤ rest.length then some n else none
  return bs.length - rest.length + body

def awaited (r : PeerReply) (bs : Bytes) : Option Nat :=
  if r.raw then (if bs.isEmpty then none else some bs.length) else requestLength bs

def sendPart (p : Peer) (l : Link) : Peer × Link :=
  let l := match p.parts with
    | [] => l
    | part :: _ => l.deliver part
  let p := { p with parts := p.parts.drop 1 }
  if p.parts.isEmpty && p.closes then (p, l.finish .closed) else (p, l)

def greet (p : Peer) (l : Link) : Option Link :=
  match l.dial, p.welcome with
  | .pending, .refuses => some { l with dial := .refused ⟨.other, "refused"⟩ }
  | .pending, .accepts => some { l with dial := .connected, handshake := p.handshake }
  | _, _ => none

def respond (p : Peer) (l : Link) : Option (Peer × Link) :=
  match p.replies with
  | [] => none
  | r :: rest =>
    if l.ending.isSome || !p.parts.isEmpty then none
    else (awaited r (l.outbound.drop p.seen)).map fun n =>
      let p := { p with replies := rest, seen := p.seen + n }
      if r.breaks then (p, l.finish .broken)
      else sendPart { p with parts := r.parts, closes := r.closes } l

def resume (p : Peer) (l : Link) : Option (Peer × Link) :=
  if p.parts.isEmpty then none else some (sendPart p l)

def react (p : Peer) (l : Link) : Option (Peer × Link) :=
  match p.greet l with
  | some l => some (p, l)
  | none => p.respond l

def work (p : Peer) : Nat :=
  let parts := p.parts ++ p.replies.flatMap (·.parts)
  parts.length + parts.flatten.length + p.replies.length

end Peer

structure World where
  hub : Hub
  peers : List Peer
  deriving DecidableEq, Repr

namespace World

def new (hub : Hub) (peers : List Peer) : World := ⟨hub, peers⟩

def firstChange (f : Peer → Link → Option (Peer × Link)) (peers : List Peer) (n : Nat) :
    List Link → Option (Nat × Peer × Link)
  | [] => none
  | l :: links =>
    match f (peers.headD .absent) l with
    | some (p, l) => some (n, p, l)
    | none => firstChange f peers.tail (n + 1) links

def change (f : Peer → Link → Option (Peer × Link)) (w : World) : Option World :=
  (firstChange f w.peers 0 w.hub.links).map fun (n, p, l) =>
    ⟨w.hub.setLink n l, w.peers.set n p⟩

/-- What a far end does next. Pauses last until nothing else can happen. -/
def stir (w : World) : Option World := w.change Peer.react <|> w.change Peer.resume

def work (w : World) : Nat :=
  w.peers.foldr (fun p n => p.work + 1 + n) 0 +
    w.hub.links.foldr (fun l n => l.inbound.length + 2 + n) 0

def stirAll : Nat → World → World
  | 0, w => w
  | n + 1, w =>
    match w.stir with
    | some w => stirAll n w
    | none => w

/-- Lets the far ends do all they can without the near end. -/
def settle (w : World) : World := stirAll (w.work + 1) w

def onLink (w : World) (n : Nat) (f : Link → Link) : World :=
  match w.hub.links[n]? with
  | some l => { w with hub := w.hub.setLink n (f l) }
  | none => w

def sleep (w : World) (ms : Nat) : World := { w with hub := { w.hub with now := w.hub.now + ms } }

end World
end HttpClient.Scenario
