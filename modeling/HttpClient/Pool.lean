import HttpClient.Link
import HttpClient.Request
set_option autoImplicit false

/-!
The pool of connections. A connection is held by a handle or waits on the idle list, under the key
of its endpoint. It keeps its number for life; a handle that gave its connection back keeps the
number too, so the number can be on an old handle and in use again.
-/

namespace HttpClient

structure Transport where
  link : Nat
  session : Option TlsSession
  deriving DecidableEq, Repr

structure Handle where
  id : Nat
  key : String
  /-- Gone once the connection was given back. -/
  transport : Option Transport
  tunneled : Bool
  reused : Bool
  closed : Bool
  deriving DecidableEq, Repr

namespace Handle

def isDetached (h : Handle) : Bool := h.transport.isNone

def markClosed (h : Handle) : Handle := { h with closed := true }

def detached (h : Handle) : Handle := { h with transport := none }

def session (h : Handle) : Option TlsSession := h.transport.bind (·.session)

end Handle

structure IdleConnection where
  id : Nat
  key : String
  transport : Transport
  tunneled : Bool
  since : Nat
  deriving DecidableEq, Repr

structure PoolConfig where
  /-- None means that idle connections are kept forever. -/
  idleTimeoutMs : Option Nat
  maxIdlePerKey : Nat
  deriving DecidableEq, Repr

def PoolConfig.standard : PoolConfig := ⟨some 90000, 8⟩

structure Pool where
  config : PoolConfig
  proxies : Proxies
  /-- The one given back last comes first. -/
  idle : List IdleConnection
  inUse : List Nat
  nextId : Nat
  deriving DecidableEq, Repr

namespace Pool

def new (proxies : Proxies) (config : PoolConfig) : Pool := ⟨config, proxies, [], [], 1⟩

def keyFor (p : Pool) (e : Endpoint) : String := p.proxies.keyFor e

def isInUse (p : Pool) (id : Nat) : Bool := p.inUse.contains id

def idleCount (p : Pool) (key : String) : Nat := p.idle.countP fun c => c.key == key

def isExpired (p : Pool) (now : Nat) (c : IdleConnection) : Bool :=
  p.config.idleTimeoutMs.any fun limit => limit ≤ now - c.since

def takeFrom (key : String) (fit : IdleConnection → Bool) :
    List IdleConnection → Option IdleConnection × List IdleConnection
  | [] => (none, [])
  | c :: rest =>
    if c.key ≠ key then
      let (found, kept) := takeFrom key fit rest
      (found, c :: kept)
    else if fit c then (some c, rest)
    else takeFrom key fit rest

theorem takeFrom_some {key : String} {fit : IdleConnection → Bool} {cs kept : List IdleConnection}
    {c : IdleConnection} (h : takeFrom key fit cs = (some c, kept)) :
    c ∈ cs ∧ c.key = key ∧ fit c = true := by
  induction cs generalizing kept with
  | nil => simp [takeFrom] at h
  | cons d cs ih =>
    simp only [takeFrom] at h
    split at h
    · have hr : takeFrom key fit cs = (some c, (takeFrom key fit cs).2) :=
        Prod.ext (Prod.ext_iff.1 h).1 rfl
      obtain ⟨hc, hk⟩ := ih hr
      exact ⟨List.mem_cons_of_mem _ hc, hk⟩
    · next hk =>
      split at h
      · next hf =>
        cases h
        exact ⟨List.mem_cons_self, Decidable.of_not_not hk, hf⟩
      · obtain ⟨hc, hk⟩ := ih h
        exact ⟨List.mem_cons_of_mem _ hc, hk⟩

theorem takeFrom_sublist (key : String) (fit : IdleConnection → Bool) (cs : List IdleConnection) :
    (takeFrom key fit cs).2.Sublist cs := by
  induction cs with
  | nil => exact List.Sublist.refl _
  | cons d cs ih =>
    simp only [takeFrom]
    split
    · exact ih.cons_cons d
    · split
      · exact List.sublist_cons_self d cs
      · exact ih.cons d

def enroll (p : Pool) (id : Nat) : Pool := { p with inUse := p.inUse.insert id }

def dismiss (p : Pool) (id : Nat) : Pool := { p with inUse := p.inUse.filter (· != id) }

theorem mem_inUse_enroll {p : Pool} {id n : Nat} :
    n ∈ (p.enroll id).inUse ↔ n = id ∨ n ∈ p.inUse := by simp [enroll]

theorem mem_inUse_dismiss {p : Pool} {id n : Nat} :
    n ∈ (p.dismiss id).inUse ↔ n ∈ p.inUse ∧ n ≠ id := by simp [dismiss]

/-- Takes the connection that became idle last and is neither expired nor unusable. -/
def takeIdle (p : Pool) (usable : Nat → Bool) (now : Nat) (key : String) : Option Handle × Pool :=
  let fit (c : IdleConnection) : Bool := !p.isExpired now c && usable c.transport.link
  match takeFrom key fit p.idle with
  | (none, kept) => (none, { p with idle := kept })
  | (some c, kept) =>
    (some ⟨c.id, c.key, some c.transport, c.tunneled, true, false⟩,
      { p with idle := kept }.enroll c.id)

/-- A handle for a new connection. It is not in use before it is enrolled. -/
def register (p : Pool) (key : String) (link : Nat) : Handle × Pool :=
  (⟨p.nextId, key, some ⟨link, none⟩, false, false, false⟩, { p with nextId := p.nextId + 1 })

/-- Gives a connection back. It becomes idle if it is usable and there is room under its key. -/
def release (p : Pool) (usable : Nat → Bool) (now : Nat) (h : Handle) : Handle × Pool :=
  match h.transport with
  | none => (h, p)
  | some t =>
    let p := p.dismiss h.id
    let kept := !h.closed && usable t.link && p.idleCount h.key < p.config.maxIdlePerKey
    (h.detached,
      if kept then { p with idle := ⟨h.id, h.key, t, h.tunneled, now⟩ :: p.idle } else p)

/-- Closes a connection; its number is no longer in use, whoever holds it. -/
def discard (p : Pool) (h : Handle) : Handle × Pool := (h.detached, p.dismiss h.id)

end Pool
end HttpClient
