import HttpClient.Pool
import HttpClient.Tunnel
set_option autoImplicit false

/-!
Acquiring a connection: an idle one is taken, or a new one is dialed and, behind a proxy, gets a
tunnel. Others use the pool meanwhile, so this goes step by step. A new connection is in use only
when it is handed out.
-/

namespace HttpClient

structure Hub where
  pool : Pool
  links : List Link
  now : Nat
  deriving DecidableEq, Repr

namespace Hub

def new (proxies : Proxies) (config : PoolConfig) : Hub := ⟨.new proxies config, [], 0⟩

/-- Idle connections are fit for use as long as nothing can be read on them. -/
def usable (hub : Hub) (n : Nat) : Bool := (hub.links[n]?).any (·.isQuiet)

def setLink (hub : Hub) (n : Nat) (l : Link) : Hub := { hub with links := hub.links.set n l }

def dial (hub : Hub) (target : String) : Hub := { hub with links := hub.links ++ [.dialed target] }

def takeIdle (hub : Hub) (key : String) : Option Handle × Hub :=
  let (h, pool) := hub.pool.takeIdle hub.usable hub.now key
  (h, { hub with pool := pool })

def register (hub : Hub) (key : String) (link : Nat) : Handle × Hub :=
  let (h, pool) := hub.pool.register key link
  (h, { hub with pool := pool })

def enroll (hub : Hub) (h : Handle) : Hub := { hub with pool := hub.pool.enroll h.id }

def release (hub : Hub) (h : Handle) : Handle × Hub :=
  let (h, pool) := hub.pool.release hub.usable hub.now h
  (h, { hub with pool := pool })

def discard (hub : Hub) (h : Handle) : Handle × Hub :=
  let (h, pool) := hub.pool.discard h
  (h, { hub with pool := pool })

def linkOf (hub : Hub) (h : Handle) : Option (Nat × Link) := do
  let t ← h.transport
  return (t.link, ← hub.links[t.link]?)

end Hub

inductive Acquisition where
  | start
  | dialing (link : Nat)
  | tunnelling (handle : Handle) (parser : Parser)
  deriving DecidableEq, Repr

namespace Acquisition

inductive Move where
  | wait
  | next (stage : Acquisition) (hub : Hub)
  | done (handle : Handle) (hub : Hub)
  | fail (error : AcquireError) (hub : Hub)
  deriving DecidableEq, Repr

def target (hub : Hub) (e : Endpoint) : String :=
  (hub.pool.proxies.forScheme e.secure).getD e.authority

def begin (e : Endpoint) (hub : Hub) : Move :=
  match hub.takeIdle (hub.pool.keyFor e) with
  | (some h, hub) => .done h hub
  | (none, hub) => .next (.dialing hub.links.length) (hub.dial (target hub e))

def connect (e : Endpoint) (n : Nat) (l : Link) (hub : Hub) : Move :=
  let (h, hub) := hub.register (hub.pool.keyFor e) n
  if (hub.pool.proxies.forScheme e.secure).isNone then .done h (hub.enroll h)
  else match Tunnel.ask e.authority l with
    | .error error => .fail (.tunnel error) hub
    | .ok l => .next (.tunnelling h Tunnel.reader) (hub.setLink n l)

def step (e : Endpoint) (hub : Hub) : Acquisition → Move
  | .start => begin e hub
  | .dialing n =>
    match hub.links[n]? with
    | none => .wait
    | some l => match l.dial with
      | .pending => .wait
      | .refused failure => .fail (.connect l.target failure) hub
      | .connected => connect e n l hub
  | .tunnelling h parser =>
    match hub.linkOf h with
    | none => .fail (.tunnel .closed) hub
    | some (n, l) => match Tunnel.step parser l with
      | .wait => .wait
      | .next parser l => .next (.tunnelling h parser) (hub.setLink n l)
      | .fail error l => .fail (.tunnel error) (hub.setLink n l)
      | .done l =>
        let h := { h with tunneled := true }
        .done h ((hub.setLink n l).enroll h)

end Acquisition
end HttpClient
