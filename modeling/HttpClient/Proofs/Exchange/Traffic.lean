import HttpClient.Proofs.Exchange.Turns
set_option autoImplicit false

/-!
Exchanges that share one pool, callers that leave or cancel, and far ends that send and close as
they like, in any order. Beside the state there is a record, which nothing reads, of all that has
come on each link and of what each exchange found on its connection when it got it.
-/

namespace HttpClient

structure Lease where
  arrived : Bytes
  unread : Bytes
  sent : Bytes
  fed : Bytes

structure Traffic where
  hub : Hub
  exchange : Nat → Option Exchange
  arrived : Nat → Bytes
  lease : Nat → Lease

inductive FarAct where
  | deliver (data : Bytes)
  | finish (ending : Ending)
  | greet (dial : Dial) (handshake : Option (Option String))

namespace FarAct

def change (a : FarAct) (l : Link) : Link :=
  match a with
  | .deliver data => l.deliver data
  | .finish ending => l.finish ending
  | .greet dial handshake => { l with dial := dial, handshake := handshake }

def sends (a : FarAct) (l : Link) : Bytes :=
  match a with
  | .deliver data => if l.ending.isSome then [] else data
  | _ => []

theorem inbound_change (a : FarAct) (l : Link) : (a.change l).inbound = l.inbound ++ a.sends l := by
  cases a with
  | deliver data => by_cases h : l.ending.isSome <;> simp [change, sends, Link.deliver, h]
  | finish ending => simp [change, sends, Link.finish]
  | greet dial handshake => simp [change, sends]

theorem outbound_change (a : FarAct) (l : Link) : (a.change l).outbound = l.outbound := by
  cases a with
  | deliver data => by_cases h : l.ending.isSome <;> simp [change, Link.deliver, h]
  | finish ending => rfl
  | greet dial handshake => rfl

end FarAct

namespace Exchange

/-- The octets that were read and not fed to the parser yet. -/
def pending (x : Exchange) : Bytes :=
  match x.stage with
  | .parsing _ _ data => data
  | _ => []

def tenure (x : Exchange) : Tenure :=
  match x.stage with
  | .acquiring _ a => a.tenure
  | _ => x.connection.elim .nothing .connection

end Exchange

/-- The record of an exchange after its step from `x` to `y`. -/
def Lease.renew (lease : Lease) (arrived : Nat → Bytes) (x y : Exchange) (hub : Hub) : Lease :=
  if x.connection.isNone then
    match y.linkOf hub with
    | some (_, n, l) => ⟨arrived n, l.inbound, l.outbound, []⟩
    | none => lease
  else { lease with fed := lease.fed ++ x.pending }

namespace Traffic

open Function (update)

inductive Act where
  | start (i : Nat) (request : Request) (options : ClientOptions) (defaults : Fields)
  | step (i : Nat) (quota : Nat)
  | cancel (i : Nat) (cause : Cause)
  | leave (i : Nat)
  | pull (i : Nat) (reader : Reader)
  | far (n : Nat) (act : FarAct)
  | wait (ms : Nat)

def new (proxies : Proxies) (config : PoolConfig) : Traffic :=
  ⟨.new proxies config, fun _ => none, fun _ => [], fun _ => ⟨[], [], [], []⟩⟩

def put (s : Traffic) (i : Nat) (x : Exchange) (result : Exchange × Hub) : Traffic :=
  { s with
    hub := result.2
    exchange := update s.exchange i (some result.1)
    lease := update s.lease i ((s.lease i).renew s.arrived x result.1 result.2) }

/-- What cannot happen changes nothing. -/
def apply (s : Traffic) : Act → Traffic
  | .start i request options defaults =>
    match s.exchange i with
    | none => { s with exchange := update s.exchange i (some (.new i request options defaults)) }
    | some _ => s
  | .step i quota =>
    match s.exchange i with
    | none => s
    | some x => match x.step quota s.hub with
      | none => s
      | some result => s.put i x result
  | .cancel i cause =>
    match s.exchange i with
    | none => s
    | some x => s.put i x (x.cancel cause s.hub)
  | .leave i =>
    match s.exchange i with
    | none => s
    | some x => { s with exchange := update s.exchange i (some x.leave) }
  | .pull i reader =>
    match s.exchange i with
    | none => s
    | some x => { s with exchange := update s.exchange i (some (x.pull reader).2.2) }
  | .far n act =>
    match s.hub.links[n]? with
    | none => s
    | some l =>
      { s with
        hub := s.hub.setLink n (act.change l)
        arrived := update s.arrived n (s.arrived n ++ act.sends l) }
  | .wait ms => { s with hub := { s.hub with now := s.hub.now + ms } }

def run (s : Traffic) (acts : List Act) : Traffic := acts.foldl apply s

end Traffic

theorem Handle.Carries.id?_eq {h h' : Handle} (c : h.Carries h') :
    (Tenure.connection h').id? = (Tenure.connection h).id? := by
  have hl := c.link
  unfold Tenure.id?
  cases ht : h.transport <;> cases ht' : h'.transport <;> simp_all [c.id]

namespace Exchange

open Function (update)

theorem tenure_of_acquiring {x : Exchange} {plan : Plan} {a : Acquisition}
    (h : x.stage = .acquiring plan a) : x.tenure = a.tenure := by
  rw [tenure, h]

theorem tenure_of_not_acquiring {x : Exchange} (hs : ∀ plan a, x.stage ≠ .acquiring plan a) :
    x.tenure = x.connection.elim .nothing .connection := by
  unfold tenure
  split
  · next hx => exact absurd hx (hs _ _)
  · rfl

theorem tenure_of_connection {x : Exchange} {h : Handle} (hc : x.connection = some h)
    (hs : ∀ plan a, x.stage ≠ .acquiring plan a) : x.tenure = .connection h := by
  rw [tenure_of_not_acquiring hs, hc]
  rfl

theorem tenure_of_finished {x : Exchange} (hs : x.stage = .finished) (hc : x.connection = none) :
    x.tenure = .nothing := by
  rw [tenure_of_not_acquiring (by simp [hs]), hc]
  rfl

theorem tenure_of_same {x y : Exchange} (hc : y.connection = x.connection)
    (hx : ∀ plan a, x.stage ≠ .acquiring plan a) (hy : ∀ plan a, y.stage ≠ .acquiring plan a) :
    y.tenure = x.tenure := by
  rw [tenure_of_not_acquiring hx, tenure_of_not_acquiring hy, hc]

theorem Receives.not_acquiring {y : Exchange} {plan : Plan} {r : Receipt} (h : y.Receives plan r)
    (plan' : Plan) (a : Acquisition) : y.stage ≠ .acquiring plan' a := by
  rcases h with h | h | ⟨piece, h⟩ <;> simp [h]

section Turns

variable {ι : Type} {origin : Pool} {x y : Exchange} {hub hub' : Hub} {tenure : ι → Tenure} {i : ι}

theorem Touched.custody (t : x.Touched hub hub') (h : Custody origin hub tenure) :
    Custody origin hub' tenure := by
  cases t with
  | untouched => exact h
  | @link c n l found m => exact h.setLink n m

theorem custody_of_like (like : hub.Like hub') (h : Custody origin hub tenure) :
    Custody origin hub' tenure :=
  h.of_eq like.idle like.nextId like.config (by rw [like.links])

variable [DecidableEq ι]

theorem Turn.custody (t : x.Turn hub y hub') (h : Custody origin hub tenure)
    (hi : tenure i = x.tenure) : Custody origin hub' (update tenure i y.tenure) := by
  cases t with
  | quit touched quits =>
    rw [tenure_of_finished quits.stage quits.connection]
    exact (custody_of_like quits.like (touched.custody h)).vacate i rfl rfl
  | planned stage made next connection keepAlive same =>
    rw [tenure_of_acquiring next, same]
    exact h.vacate i rfl rfl
  | @acquiring plan a b stage step next stays =>
    rw [tenure_of_acquiring stage] at hi
    have := h.acquire (e := plan.endpoint) hi (by rw [step]; rfl)
    rw [step] at this
    rw [tenure_of_acquiring next]
    exact this
  | acquired stage step next connection keepAlive =>
    rw [tenure_of_acquiring stage] at hi
    have := h.acquire hi (by rw [step]; rfl)
    rw [step] at this
    rw [tenure_of_connection connection (by rcases next with h | h <;> simp [h])]
    exact this
  | unacquired stage step quits =>
    rw [tenure_of_acquiring stage] at hi
    have := h.acquire hi (by rw [step]; rfl)
    rw [step] at this
    rw [tenure_of_finished quits.stage quits.connection]
    exact custody_of_like quits.like this
  | secured stage connection carries next connection' keepAlive same =>
    rw [same]
    rw [tenure_of_connection connection (by simp [stage])] at hi
    rw [tenure_of_connection connection' (by simp [next])]
    exact h.rename (hi ▸ carries.id?_eq) (hi ▸ carries.link)
  | wrote stage writes found write next stays same =>
    rw [same, tenure_of_same stays.connection (by simp [stage]) (by simp [next])]
    exact (h.keep hi).setLink _ _
  | written stage writes failure next stays same =>
    rw [same, tenure_of_same stays.connection (by simp [stage]) (by simp [next])]
    exact h.keep hi
  | read stage found read next receipt stays same =>
    rw [same, tenure_of_same stays.connection (by simp [stage]) (by simp [next])]
    exact (h.keep hi).setLink _ _
  | retried stage touched like next connection keepAlive =>
    rw [tenure_of_acquiring next]
    exact (custody_of_like like (touched.custody h)).vacate i rfl rfl
  | parsed stage feed next connection keepAlive same =>
    rw [same, tenure_of_same connection (by simp [stage]) next.not_acquiring]
    exact h.keep hi
  | offered stage next stays same =>
    rw [same, tenure_of_same stays.connection (by simp [stage]) (by simp [next])]
    exact h.keep hi
  | returned completes stage connection same =>
    rw [tenure_of_connection completes.connection (by simp [completes.stage])] at hi
    rw [same, tenure_of_finished stage connection]
    exact h.release hi rfl rfl

end Turns

section Spares

variable {x y : Exchange} {hub hub' : Hub}

/-- While it acquires a connection an exchange has none. -/
def Wired (x : Exchange) : Prop := ∀ plan a, x.stage = .acquiring plan a → x.connection = none

theorem link?_of_linkOf {h : Handle} {n : Nat} {l : Link} (hx : x.Wired)
    (hl : x.linkOf hub = some (h, n, l)) : x.tenure.link? = some n := by
  obtain ⟨hc, hn⟩ := linkOf_eq_some hl
  have hs : ∀ plan a, x.stage ≠ .acquiring plan a := by
    intro plan a h
    rw [hx plan a h] at hc
    cases hc
  rw [tenure_of_connection hc hs]
  exact (Hub.linkOf_eq_some_iff.1 hn).1

theorem Touched.spares (t : x.Touched hub hub') (hx : x.Wired) :
    hub.Spares x.tenure.link? hub' := by
  cases t with
  | untouched => exact .of_eq rfl rfl
  | @link c n l found m =>
    rw [link?_of_linkOf hx found]
    exact .setLink n m

theorem spares_of_like {own : Option Nat} (like : hub.Like hub') : hub.Spares own hub' :=
  .of_eq like.links like.idle

/-- An exchange uses its own link only, and connections become idle only when they are given back
after a complete response. -/
theorem Turn.spares (t : x.Turn hub y hub') (hx : x.Wired) :
    hub.Spares x.tenure.link? hub' ∨
      ∃ plan r data q h, x.Completes plan r data q h ∧ hub' = (hub.release h).2 := by
  cases t with
  | returned completes stage connection same => exact .inr ⟨_, _, _, _, _, completes, same⟩
  | quit touched quits => exact .inl ((touched.spares hx).trans (spares_of_like quits.like))
  | planned stage made next connection keepAlive same => exact .inl (same ▸ .of_eq rfl rfl)
  | acquiring stage step next stays =>
    rw [tenure_of_acquiring stage]
    exact .inl (Acquisition.spares_step (by rw [step]; rfl))
  | acquired stage step next connection keepAlive =>
    rw [tenure_of_acquiring stage]
    exact .inl (Acquisition.spares_step (by rw [step]; rfl))
  | unacquired stage step quits =>
    rw [tenure_of_acquiring stage]
    exact .inl ((Acquisition.spares_step (by rw [step]; rfl)).trans (spares_of_like quits.like))
  | secured stage connection carries next connection' keepAlive same =>
    exact .inl (same ▸ .of_eq rfl rfl)
  | wrote stage writes found write next stays same =>
    rw [same, link?_of_linkOf hx found]
    exact .inl (.setLink _ _)
  | written stage writes failure next stays same => exact .inl (same ▸ .of_eq rfl rfl)
  | read stage found read next receipt stays same =>
    rw [same, link?_of_linkOf hx found]
    exact .inl (.setLink _ _)
  | retried stage touched like next connection keepAlive =>
    exact .inl ((touched.spares hx).trans (spares_of_like like))
  | parsed stage feed next connection keepAlive same => exact .inl (same ▸ .of_eq rfl rfl)
  | offered stage next stays same => exact .inl (same ▸ .of_eq rfl rfl)

theorem Turn.links (t : x.Turn hub y hub') (hx : x.Wired) {n : Nat} (hn : n < hub.links.length)
    (ho : x.tenure.link? ≠ some n) : hub'.links[n]? = hub.links[n]? := by
  rcases t.spares hx with h | ⟨plan, r, data, q, h, -, rfl⟩
  · exact h.links n hn ho
  · rw [Hub.links_release]

end Spares

end Exchange
end HttpClient
