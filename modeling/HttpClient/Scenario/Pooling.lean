import HttpClient.Scenario.Peer
set_option autoImplicit false

/-! Holders that take connections from one pool and give them back, among scripted far ends. -/

namespace HttpClient.Scenario

inductive Acquired where
  | got (h : Handle)
  | failed (error : AcquireError)
  | stuck
  deriving DecidableEq, Repr

namespace World

def finishAcquisition (e : Endpoint) : Nat → Acquisition → World → Acquired × World
  | 0, _, w => (.stuck, w)
  | n + 1, a, w =>
    match a.step e w.hub with
    | .done h hub => (.got h, { w with hub := hub })
    | .fail error hub => (.failed error, { w with hub := hub })
    | .next a hub => finishAcquisition e n a { w with hub := hub }
    | .wait =>
      match w.stir with
      | some w => finishAcquisition e n a w
      | none => (.stuck, w)

def acquire (w : World) (e : Endpoint) : Acquired × World :=
  finishAcquisition e (4 * w.work + 16) .start w

def finishTunnel (t : Nat) : Nat → Parser → World → Option TunnelError × World
  | 0, _, w => (some .closed, w)
  | n + 1, p, w =>
    match w.hub.links[t]? with
    | none => (some .closed, w)
    | some l => match Tunnel.step p l with
      | .done l => (none, { w with hub := w.hub.setLink t l })
      | .fail error l => (some error, { w with hub := w.hub.setLink t l })
      | .next p l => finishTunnel t n p { w with hub := w.hub.setLink t l }
      | .wait =>
        match w.stir with
        | some w => finishTunnel t n p w
        | none => (some .closed, w)

def tunnel (w : World) (h : Handle) (authority : String) : Except TunnelError Handle × World :=
  if h.tunneled then (.ok h, w)
  else match w.hub.linkOf h with
    | none => (.error .closed, w)
    | some (n, l) => match Tunnel.ask authority l with
      | .error error => (.error error, w)
      | .ok l =>
        let w := { w with hub := w.hub.setLink n l }
        match finishTunnel n (4 * w.work + 16) Tunnel.reader w with
        | (none, w) => (.ok { h with tunneled := true }, w)
        | (some error, w) => (.error error, w)

end World

inductive Interruption where
  | never
  | before (cause : Cause)
  | whileWaiting
  | afterAnswer
  deriving DecidableEq, Repr

structure Pooling where
  world : World
  slots : List (Option Handle)
  deriving DecidableEq, Repr

namespace Pooling

def slot? (s : Pooling) (i : Nat) : Option Handle := (s.slots[i]?).join

def setSlot (s : Pooling) (i : Nat) (h : Option Handle) : Pooling :=
  { s with slots := s.slots.set i h }

def settle (s : Pooling) : Pooling := { s with world := s.world.settle }

def acquire (s : Pooling) (e : Endpoint) (interruption : Interruption) :
    Except AcquireError Handle × Pooling :=
  match interruption with
  | .before cause => (.error (.cancelled cause), { s with slots := s.slots ++ [none] })
  | _ =>
    match s.world.acquire e with
    | (.got h, w) => (.ok h, ⟨w, s.slots ++ [some h]⟩)
    | (.failed error, w) => (.error error, ⟨w, s.slots ++ [none]⟩)
    | (.stuck, w) => (.error (.cancelled .cancelled), ⟨w, s.slots ++ [none]⟩)

def giveBack (s : Pooling) (i : Nat) (f : Hub → Handle → Handle × Hub) : Pooling :=
  match s.slot? i with
  | none => s
  | some h =>
    let (h, hub) := f s.world.hub h
    { s with world := { s.world with hub := hub } }.setSlot i (some h)

def release (s : Pooling) (i : Nat) : Pooling := s.giveBack i Hub.release

def discard (s : Pooling) (i : Nat) : Pooling := s.giveBack i Hub.discard

def markClosed (s : Pooling) (i : Nat) : Pooling :=
  s.setSlot i ((s.slot? i).map Handle.markClosed)

def forget (s : Pooling) (i : Nat) : Pooling := s.setSlot i none

def tunnel (s : Pooling) (i : Nat) (h : Handle) (authority : String) :
    Option TunnelError × Pooling :=
  match s.world.tunnel h authority with
  | (.ok h, w) => (none, { s with world := w }.setSlot i (some h))
  | (.error error, w) => (some error, { s with world := w })

def write (s : Pooling) (h : Handle) (data : Bytes) : Bool × Pooling :=
  match s.world.hub.linkOf h with
  | none => (false, s)
  | some (n, l) =>
    let l := (l.write data).toOption.getD l
    (true, { s with world := { s.world with hub := s.world.hub.setLink n l } })

end Pooling
end HttpClient.Scenario
