import HttpClient.Proofs.Pool.Custody
set_option autoImplicit false

/-!
Any number of clients of one pool. They acquire connections, give them back or drop them in any
order, also in the middle of an acquisition and more than once, and the far ends do what they like.
-/

namespace HttpClient

inductive Client where
  | away
  | acquiring (e : Endpoint) (a : Acquisition)
  | holding (h : Handle)

namespace Client

inductive Act where
  | ask (e : Endpoint)
  | go
  | cancel
  | release
  | discard
  | markClosed
  | tunnel
  | secure (session : Option TlsSession)
  | drop

def go (e : Endpoint) (a : Acquisition) (hub : Hub) : Client × Hub :=
  match a.step e hub with
  | .wait => (.acquiring e a, hub)
  | .next a hub => (.acquiring e a, hub)
  | .done h hub => (.holding h, hub)
  | .fail _ hub => (.away, hub)

def secure (session : Option TlsSession) (h : Handle) : Handle :=
  match session with
  | some s => { h with transport := h.transport.map fun t => { t with session := some s } }
  | none => h.detached

/-- What does not fit what the client is doing changes nothing. -/
def act (a : Act) (c : Client) (hub : Hub) : Client × Hub :=
  match c, a with
  | .away, .ask e => (.acquiring e .start, hub)
  | .acquiring e a, .go => go e a hub
  | .acquiring .., .cancel => (.away, hub)
  | .holding h, .release => (.holding (hub.release h).1, (hub.release h).2)
  | .holding h, .discard => (.holding (hub.discard h).1, (hub.discard h).2)
  | .holding h, .markClosed => (.holding h.markClosed, hub)
  | .holding h, .tunnel => (.holding { h with tunneled := true }, hub)
  | .holding h, .secure session => (.holding (secure session h), hub)
  | .holding _, .drop => (.away, hub)
  | c, _ => (c, hub)

def tenure : Client → Tenure
  | .away => .nothing
  | .acquiring _ a => a.tenure
  | .holding h => .connection h

section Act

open Function (update)

variable {ι : Type} [DecidableEq ι] {origin : Pool} {hub : Hub} {tenure : ι → Tenure} {i : ι}

theorem custody_go {e : Endpoint} {a : Acquisition} (h : Custody origin hub tenure)
    (hi : tenure i = a.tenure) :
    Custody origin (go e a hub).2 (update tenure i (go e a hub).1.tenure) := by
  have hstep : ∀ hub', (a.step e hub).hub? = some hub' →
      Custody origin hub' (update tenure i (a.step e hub).tenure) := fun _ => h.acquire hi
  unfold go
  cases hm : a.step e hub with
  | wait => exact h.keep hi
  | next a hub =>
    rw [hm] at hstep
    exact hstep hub rfl
  | done x hub =>
    rw [hm] at hstep
    exact hstep hub rfl
  | fail error hub =>
    rw [hm] at hstep
    exact hstep hub rfl

theorem tenure_secure (session : Option TlsSession) (x : Handle) :
    (secure session x).transport = none ∨
      (Tenure.connection (secure session x)).id? = (Tenure.connection x).id? ∧
        (Tenure.connection (secure session x)).link? = (Tenure.connection x).link? := by
  cases session with
  | none => exact .inl rfl
  | some s =>
    right
    cases hx : x.transport <;> simp [secure, Tenure.id?, Tenure.link?, hx]

theorem custody_act (a : Act) {c : Client} (h : Custody origin hub tenure)
    (hi : tenure i = c.tenure) :
    Custody origin (c.act a hub).2 (update tenure i (c.act a hub).1.tenure) := by
  cases c with
  | away => cases a <;> exact h.keep hi
  | acquiring e b =>
    cases a with
    | go => exact custody_go h hi
    | cancel => exact h.vacate i rfl rfl
    | _ => exact h.keep hi
  | holding x =>
    cases a with
    | release =>
      have ht := hub.transport_release x
      exact h.release hi (Tenure.id?_of_transport ht) (Tenure.link?_of_transport ht)
    | discard => exact h.discard x i rfl rfl
    | markClosed => exact h.rename (by rw [hi]; rfl) (by rw [hi]; rfl)
    | tunnel => exact h.rename (by rw [hi]; rfl) (by rw [hi]; rfl)
    | secure session =>
      rcases tenure_secure session x with hnone | ⟨hid, hlink⟩
      · exact h.vacate i (Tenure.id?_of_transport hnone) (Tenure.link?_of_transport hnone)
      · exact h.rename (by rw [hi]; exact hid) (by rw [hi]; exact hlink)
    | drop => exact h.vacate i rfl rfl
    | _ => exact h.keep hi

end Act

end Client

structure Clientele where
  hub : Hub
  client : Nat → Client

namespace Clientele

inductive Act where
  | client (i : Nat) (act : Client.Act)
  | link (n : Nat) (change : Link → Link)
  | wait (ms : Nat)

def new (proxies : Proxies) (config : PoolConfig) : Clientele :=
  ⟨.new proxies config, fun _ => .away⟩

def apply (s : Clientele) : Act → Clientele
  | .client i act =>
    ⟨((s.client i).act act s.hub).2, Function.update s.client i ((s.client i).act act s.hub).1⟩
  | .link n change => { s with hub := { s.hub with links := s.hub.links.modify n change } }
  | .wait ms => { s with hub := { s.hub with now := s.hub.now + ms } }

def run (s : Clientele) (acts : List Act) : Clientele := acts.foldl apply s

theorem run_concat (s : Clientele) (acts : List Act) (a : Act) :
    s.run (acts ++ [a]) = (s.run acts).apply a := by
  simp [run, List.foldl_append]

def holds (s : Clientele) (i : Nat) (id : Nat) : Prop := (s.client i).tenure.id? = some id

def idleIds (s : Clientele) : List Nat := s.hub.pool.idle.map (·.id)

/-- What each client holds, and beside them someone who never lets go of `spare`. -/
def tenure (spare : Tenure) (s : Clientele) : Option Nat → Tenure
  | none => spare
  | some i => (s.client i).tenure

theorem tenure_update (spare : Tenure) (s : Clientele) (hub : Hub) (i : Nat) (c : Client) :
    tenure spare ⟨hub, Function.update s.client i c⟩ =
      Function.update (s.tenure spare) (some i) c.tenure := by
  funext j
  cases j with
  | none => simp [tenure]
  | some j =>
    by_cases hj : j = i
    · simp [tenure, hj]
    · simp [tenure, hj]

theorem custody_apply {origin : Pool} {spare : Tenure} {s : Clientele}
    (h : Custody origin s.hub (s.tenure spare))
    (a : Act) : Custody origin (s.apply a).hub ((s.apply a).tenure spare) := by
  cases a with
  | client i act =>
    simp only [apply, tenure_update]
    exact Client.custody_act act h rfl
  | link n change => exact h.of_eq rfl rfl rfl (by simp [apply])
  | wait ms => exact h.of_eq rfl rfl rfl rfl

theorem custody_run {origin : Pool} {spare : Tenure} {s : Clientele}
    (h : Custody origin s.hub (s.tenure spare))
    (acts : List Act) : Custody origin (s.run acts).hub ((s.run acts).tenure spare) := by
  induction acts generalizing s with
  | nil => exact h
  | cons a acts ih => exact ih (custody_apply h a)

theorem custody_new (proxies : Proxies) (config : PoolConfig) :
    Custody (.new proxies config) (new proxies config).hub
      ((new proxies config).tenure .nothing) := by
  have ht : (new proxies config).tenure .nothing = fun _ => .nothing := by
    funext i
    cases i <;> rfl
  rw [ht]
  exact .new proxies config

def gone (s : Clientele) (id : Nat) : Prop :=
  id < s.hub.pool.nextId ∧ (∀ i, ¬s.holds i id) ∧ id ∉ s.idleIds

section Custody

variable {origin : Pool} {s : Clientele} {id : Nat}

theorem custody_of_gone (h : Custody origin s.hub (s.tenure .nothing)) (hg : s.gone id) :
    Custody origin s.hub (s.tenure (.number id)) := by
  have ht : s.tenure (.number id) = Function.update (s.tenure .nothing) none (.number id) := by
    funext i
    cases i <;> rfl
  obtain ⟨hlt, hheld, hidle⟩ := hg
  rw [ht]
  refine { h with ids := ?_, links := ?_ }
  · rw [Function.comp_update]
    refine h.ids.give none hlt (fun j _ hj => ?_) hidle
    cases j with
    | none => cases hj
    | some i => exact hheld i hj
  · rw [Function.comp_update]
    exact h.links.vacate none

theorem gone_of_custody (h : Custody origin s.hub (s.tenure (.number id))) : s.gone id := by
  refine ⟨h.ids.below none id rfl, fun i hi => ?_, h.ids.busy none id rfl⟩
  cases h.ids.apart none (some i) id rfl hi

theorem gone_run (h : Custody origin s.hub (s.tenure .nothing)) (hg : s.gone id)
    (acts : List Act) : (s.run acts).gone id :=
  gone_of_custody (custody_run (custody_of_gone h hg) acts)

/-- A client has the connection of this number, or it is idle. -/
def placed (s : Clientele) (id : Nat) : Prop := (∃ i, s.holds i id) ∨ id ∈ s.idleIds

theorem gone_of_not_placed (h : Custody origin s.hub (s.tenure .nothing)) (hp : s.placed id)
    {acts : List Act} (hn : ¬(s.run acts).placed id) : (s.run acts).gone id := by
  have hlt : id < s.hub.pool.nextId := by
    rcases hp with ⟨i, hi⟩ | hi
    · exact h.ids.below (some i) id hi
    · exact h.ids.storedBelow id hi
  have hnext := (custody_run h.rebase acts).numbers
  rw [placed, not_or, not_exists] at hn
  exact ⟨Nat.lt_of_lt_of_le hlt hnext, hn⟩

end Custody

theorem not_holds_of_done {origin : Pool} {s : Clientele} {i j : Nat} {e : Endpoint}
    {a : Acquisition} {x : Handle} {hub : Hub} (h : Custody origin s.hub (s.tenure .nothing))
    (hc : s.client i = .acquiring e a) (hd : a.step e s.hub = .done x hub) (hj : j ≠ i) :
    ¬s.holds j x.id := by
  intro hx
  have hafter := custody_apply h (.client i .go)
  have hgo : (s.client i).act .go s.hub = (.holding x, hub) := by
    simp only [hc, Client.act, Client.go, hd]
  obtain ⟨t, ht⟩ := Option.isSome_iff_exists.1 (Acquisition.transport_of_done hd)
  have hi : (s.apply (.client i .go)).holds i x.id := by
    simp [holds, apply, hgo, Client.tenure, Tenure.id?, ht]
  have hstill : (s.apply (.client i .go)).holds j x.id := by
    simpa [holds, apply, Function.update_of_ne hj] using hx
  exact hj (Option.some.inj (hafter.ids.apart (some j) (some i) x.id hstill hi))

/-- However clients and far ends go about it, each connection is with one client, or idle once; an
acquisition never gives out one that another client has; one that was dropped never comes back; and
there are never too many idle ones. -/
theorem exclusive (proxies : Proxies) (config : PoolConfig) (acts : List Act) :
    let s := (new proxies config).run acts
    (∀ i j id, s.holds i id → s.holds j id → i = j) ∧
    (∀ i id, s.holds i id → id ∉ s.idleIds) ∧
    s.idleIds.Nodup ∧
    (∀ i e a h hub, s.client i = .acquiring e a → a.step e s.hub = .done h hub →
      ∀ j, j ≠ i → ¬s.holds j h.id) ∧
    (∀ id more later, s.placed id → ¬(s.run more).placed id →
      ¬((s.run more).run later).placed id) ∧
    ∀ key, s.hub.pool.idleCount key ≤ config.maxIdlePerKey := by
  intro s
  have h : Custody (.new proxies config) s.hub (s.tenure .nothing) :=
    custody_run (custody_new proxies config) acts
  refine ⟨fun i j id hi hj => ?_, fun i id hi => h.ids.busy (some i) id hi, h.ids.nodup,
    fun i e a x hub hc hd j hj => not_holds_of_done h hc hd hj, fun id more later hp hn hl => ?_,
    h.room⟩
  · exact Option.some.inj (h.ids.apart (some i) (some j) id hi hj)
  · have hg := gone_of_not_placed h hp hn
    have := gone_run (custody_run h more) hg later
    rcases hl with ⟨i, hi⟩ | hi
    · exact this.2.1 i hi
    · exact this.2.2 hi

end Clientele

end HttpClient
