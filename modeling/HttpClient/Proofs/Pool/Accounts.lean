import HttpClient.Proofs.Pool.Origins
import HttpClient.Proofs.Tunnel.Negotiation
set_option autoImplicit false

/-!
What the pool does on a link. Clients and far ends write and read as well, so an account is kept of
what was written and read when the pool acted.
-/

namespace HttpClient

/-- A link, and what the pool itself has written on it and read from it. -/
structure Account where
  link : Option Link
  wrote : Bytes
  read : Bytes

namespace Account

def after (x : Account) (link : Option Link) : Account where
  link := link
  wrote := x.wrote ++ (link.elim [] (·.outbound)).drop (x.link.elim [] (·.outbound)).length
  read := x.read ++ (x.link.elim [] (·.inbound)).take
    ((x.link.elim [] (·.inbound)).length - (link.elim [] (·.inbound)).length)

theorem after_self (x : Account) : x.after x.link = x := by
  simp [after]

structure Grown (x y : Account) : Prop where
  link : ∀ l, x.link = some l →
    ∃ m, y.link = some m ∧ m.target = l.target ∧ l.outbound <+: m.outbound
  wrote : y.wrote = x.wrote
  read : y.read = x.read

structure Still (x y : Account) : Prop where
  link : ∀ l, x.link = some l →
    ∃ m, y.link = some m ∧ m.target = l.target ∧ m.outbound = l.outbound
  wrote : y.wrote = x.wrote
  read : y.read = x.read

theorem Grown.refl (x : Account) : x.Grown x :=
  ⟨fun l hl => ⟨l, hl, rfl, List.prefix_refl _⟩, rfl, rfl⟩

theorem Still.refl (x : Account) : x.Still x := ⟨fun l hl => ⟨l, hl, rfl, rfl⟩, rfl, rfl⟩

structure Fresh (target : String) (x : Account) : Prop where
  link : ∃ l, x.link = some l ∧ l.target = target ∧ l.outbound = []
  wrote : x.wrote = []
  read : x.read = []

structure Asked (proxy authority : String) (parser : Parser) (x : Account) : Prop where
  link : ∃ l, x.link = some l ∧ l.target = proxy ∧
    RequestHead.encodeConnect authority = .ok l.outbound ∧ x.wrote = l.outbound
  read : Tunnel.accept Tunnel.reader x.read = .ok (some parser)

/-- The proxy was asked for a tunnel, once and before anything else, and has agreed. -/
structure Tunnelled (proxy authority : String) (x : Account) : Prop where
  link : ∃ l, x.link = some l ∧ l.target = proxy ∧ x.wrote <+: l.outbound
  wrote : RequestHead.encodeConnect authority = .ok x.wrote
  read : ∃ rest, ResponseHead.final? x.read = some (200, rest)

structure Direct (authority : String) (x : Account) : Prop where
  link : ∃ l, x.link = some l ∧ l.target = authority
  wrote : x.wrote = []
  read : x.read = []

variable {x y : Account} {target proxy authority : String} {parser : Parser}

theorem Fresh.still (h : x.Fresh target) (hy : x.Still y) : y.Fresh target := by
  obtain ⟨⟨l, hl, htarget, hout⟩, hwrote, hread⟩ := h
  obtain ⟨m, hm, hm', hout'⟩ := hy.link l hl
  exact ⟨⟨m, hm, hm'.trans htarget, hout'.trans hout⟩, hy.wrote.trans hwrote, hy.read.trans hread⟩

theorem Asked.still (h : x.Asked proxy authority parser) (hy : x.Still y) :
    y.Asked proxy authority parser := by
  obtain ⟨⟨l, hl, htarget, hrequest, hwrote⟩, hread⟩ := h
  obtain ⟨m, hm, hm', hout⟩ := hy.link l hl
  exact ⟨⟨m, hm, hm'.trans htarget, hout ▸ hrequest, by rw [hy.wrote, hwrote, hout]⟩,
    hy.read ▸ hread⟩

theorem Tunnelled.grown (h : x.Tunnelled proxy authority) (hy : x.Grown y) :
    y.Tunnelled proxy authority := by
  obtain ⟨⟨l, hl, htarget, hout⟩, hwrote, hread⟩ := h
  obtain ⟨m, hm, hm', hmore⟩ := hy.link l hl
  exact ⟨⟨m, hm, hm'.trans htarget, hy.wrote ▸ hout.trans hmore⟩, hy.wrote ▸ hwrote,
    hy.read ▸ hread⟩

theorem Direct.grown (h : x.Direct authority) (hy : x.Grown y) : y.Direct authority := by
  obtain ⟨⟨l, hl, htarget⟩, hwrote, hread⟩ := h
  obtain ⟨m, hm, hm', -⟩ := hy.link l hl
  exact ⟨⟨m, hm, hm'.trans htarget⟩, hy.wrote.trans hwrote, hy.read.trans hread⟩

variable {l m : Link}

theorem Fresh.direct (h : x.Fresh authority) : x.Direct authority := by
  obtain ⟨⟨l, hl, htarget, -⟩, hwrote, hread⟩ := h
  exact ⟨⟨l, hl, htarget⟩, hwrote, hread⟩

theorem Fresh.ask (h : x.Fresh proxy) (hl : x.link = some l)
    (hm : Tunnel.ask authority l = .ok m) :
    (x.after (some m)).Asked proxy authority Tunnel.reader := by
  obtain ⟨⟨l', hl', htarget, hout⟩, hwrote, hread⟩ := h
  cases hl.symm.trans hl'
  obtain ⟨data, hdata, rfl⟩ := Tunnel.ask_eq_ok hm
  refine ⟨⟨_, rfl, htarget, ?_, ?_⟩, ?_⟩
  · simpa [hout] using hdata
  · simp [after, hl, hwrote, hout]
  · simpa [after, hl, hread] using Tunnel.accept_reader_nil

theorem read_after {data rest : Bytes} (hl : x.link = some l)
    (hinbound : l.inbound = data ++ rest) :
    (x.after (some { l with inbound := rest })).read = x.read ++ data := by
  simp [after, hl, hinbound]

theorem wrote_after {rest : Bytes} (hl : x.link = some l) :
    (x.after (some { l with inbound := rest })).wrote = x.wrote := by
  simp [after, hl]

theorem Asked.next {q : Parser} (h : x.Asked proxy authority parser) (hl : x.link = some l)
    (hm : Tunnel.step parser l = .next q m) : (x.after (some m)).Asked proxy authority q := by
  obtain ⟨⟨l', hl', htarget, hrequest, hwrote⟩, hread⟩ := h
  cases hl.symm.trans hl'
  obtain ⟨data, rest, -, hinbound, rfl, haccept⟩ := Tunnel.taken_of_step (some q) hm
  refine ⟨⟨_, rfl, htarget, hrequest, (wrote_after hl).trans hwrote⟩, ?_⟩
  rw [read_after hl hinbound, Tunnel.accept_append hread, haccept]

theorem Asked.done (h : x.Asked proxy authority parser) (hl : x.link = some l)
    (hm : Tunnel.step parser l = .done m) : (x.after (some m)).Tunnelled proxy authority := by
  obtain ⟨⟨l', hl', htarget, hrequest, hwrote⟩, hread⟩ := h
  cases hl.symm.trans hl'
  obtain ⟨data, rest, -, hinbound, rfl, haccept⟩ := Tunnel.taken_of_step none hm
  refine ⟨⟨_, rfl, htarget, ?_⟩, ?_, ?_⟩
  · rw [wrote_after hl]
    exact hwrote ▸ List.prefix_rfl
  · rw [wrote_after hl, hwrote]
    exact hrequest
  · rw [read_after hl hinbound]
    exact Tunnel.final?_of_accept ((Tunnel.accept_append hread data).trans haccept)

end Account

theorem Hub.links_of_takeIdle {hub hub' : Hub} {key : String} {h : Option Handle}
    (ht : hub.takeIdle key = (h, hub')) : hub'.links = hub.links := by
  unfold Hub.takeIdle at ht
  cases ht
  rfl

theorem Hub.stored_of_takeIdle {hub hub' : Hub} {key : String} {h : Handle}
    (ht : hub.takeIdle key = (some h, hub')) : ∃ c ∈ hub.pool.idle,
      h = ⟨c.id, c.key, some c.transport, c.tunneled, true, false⟩ := by
  unfold Hub.takeIdle Pool.takeIdle at ht
  dsimp only at ht
  split at ht <;> cases ht
  next c kept hk => exact ⟨c, (Pool.takeFrom_some hk).1, rfl⟩

namespace Acquisition

variable {e : Endpoint} {hub : Hub}

def number (hub : Hub) : Acquisition → Nat
  | .tunnelling h _ => h.id
  | _ => hub.pool.nextId

/-- All that a step of an acquisition can do. -/
inductive Course (e : Endpoint) (hub : Hub) : Acquisition → Move → Prop where
  | wait (a : Acquisition) : Course e hub a .wait
  | reuse {c : IdleConnection} {hub' : Hub} (stored : c ∈ hub.pool.idle)
      (links : hub'.links = hub.links) :
      Course e hub .start (.done ⟨c.id, c.key, some c.transport, c.tunneled, true, false⟩ hub')
  | dial {hub' : Hub} (links : hub'.links = hub.links ++ [.dialed (target hub e)]) :
      Course e hub .start (.next (.dialing hub.links.length) hub')
  | refused (n : Nat) (target : String) (failure : IoFailure) :
      Course e hub (.dialing n) (.fail (.connect target failure) hub)
  | direct {n : Nat} {hub' : Hub} (proxy : hub.pool.proxies.forScheme e.secure = none)
      (links : hub'.links = hub.links) :
      Course e hub (.dialing n) (.done
        ⟨hub.pool.nextId, hub.pool.keyFor e, some ⟨n, none⟩, false, false, false⟩ hub')
  | unasked {n : Nat} {error : TunnelError} {hub' : Hub} (idle : hub'.pool.idle = hub.pool.idle)
      (next : hub'.pool.nextId = hub.pool.nextId + 1) (links : hub'.links = hub.links) :
      Course e hub (.dialing n) (.fail (.tunnel error) hub')
  | ask {n : Nat} {proxy : String} {l m : Link} {hub' : Hub} (link : hub.links[n]? = some l)
      (proxied : hub.pool.proxies.forScheme e.secure = some proxy)
      (asked : Tunnel.ask e.authority l = .ok m) (links : hub'.links = hub.links.set n m) :
      Course e hub (.dialing n) (.next (.tunnelling
        ⟨hub.pool.nextId, hub.pool.keyFor e, some ⟨n, none⟩, false, false, false⟩
        Tunnel.reader) hub')
  | next {h : Handle} {p q : Parser} {n : Nat} {l m : Link} (link : hub.linkOf h = some (n, l))
      (step : Tunnel.step p l = .next q m) :
      Course e hub (.tunnelling h p) (.next (.tunnelling h q) (hub.setLink n m))
  | agreed {h : Handle} {p : Parser} {n : Nat} {l m : Link} {hub' : Hub}
      (link : hub.linkOf h = some (n, l)) (step : Tunnel.step p l = .done m)
      (links : hub'.links = hub.links.set n m) :
      Course e hub (.tunnelling h p) (.done { h with tunneled := true } hub')
  | failed {h : Handle} {p : Parser} {error : TunnelError} {hub' : Hub}
      (pool : hub'.pool = hub.pool) (links : hub'.links.length = hub.links.length) :
      Course e hub (.tunnelling h p) (.fail (.tunnel error) hub')

theorem course_connect {n : Nat} {l : Link} (hl : hub.links[n]? = some l) :
    Course e hub (.dialing n) (connect e n l hub) := by
  unfold connect
  rcases hr : hub.register (hub.pool.keyFor e) n with ⟨x, hub₁⟩
  have hpool : hub₁.pool.proxies = hub.pool.proxies := by
    cases hr
    rfl
  cases hp : hub.pool.proxies.forScheme e.secure with
  | none =>
    simp only [hpool, hp, Option.isNone_none, if_true]
    cases hr
    exact .direct hp rfl
  | some proxy =>
    simp only [hpool, hp, Option.isNone_some, Bool.false_eq_true, if_false]
    cases hr
    cases ha : Tunnel.ask e.authority l with
    | error error => exact .unasked rfl rfl rfl
    | ok m => exact .ask hl hp ha rfl

theorem course (e : Endpoint) (hub : Hub) (a : Acquisition) : Course e hub a (a.step e hub) := by
  cases a with
  | start =>
    simp only [step, begin]
    rcases ht : hub.takeIdle (hub.pool.keyFor e) with ⟨_ | x, hub'⟩
    · have hlinks := Hub.links_of_takeIdle ht
      have htarget : target hub' e = target hub e := by
        rw [target, Hub.proxies_of_takeIdle ht, target]
      dsimp only
      rw [hlinks, htarget]
      exact .dial (by rw [← hlinks]; rfl)
    · obtain ⟨c, hc, rfl⟩ := Hub.stored_of_takeIdle ht
      exact .reuse hc (Hub.links_of_takeIdle ht)
  | dialing n =>
    simp only [step]
    cases hl : hub.links[n]? with
    | none => exact .wait _
    | some l =>
      dsimp only
      split
      · exact .wait _
      · exact .refused n l.target _
      · exact course_connect hl
  | tunnelling h p =>
    simp only [step]
    cases hl : hub.linkOf h with
    | none => exact .failed rfl rfl
    | some found =>
      obtain ⟨n, l⟩ := found
      dsimp only
      cases hm : Tunnel.step p l with
      | wait => exact .wait _
      | next q m => exact .next hl hm
      | fail error m => exact .failed rfl (by simp [Hub.setLink])
      | done m => exact .agreed hl hm rfl

theorem Course.length_links {a : Acquisition} {m : Move} {hub' : Hub} (h : Course e hub a m)
    (hm : m.hub? = some hub') : hub.links.length ≤ hub'.links.length := by
  cases h with
  | wait => cases hm
  | reuse stored links =>
    cases hm
    exact Nat.le_of_eq (congrArg List.length links).symm
  | dial links =>
    cases hm
    simp [links]
  | refused =>
    cases hm
    exact Nat.le_refl _
  | direct proxy links =>
    cases hm
    exact Nat.le_of_eq (congrArg List.length links).symm
  | unasked idle next links =>
    cases hm
    exact Nat.le_of_eq (congrArg List.length links).symm
  | ask link proxied asked links =>
    cases hm
    simp [links]
  | next link step =>
    cases hm
    simp [Hub.setLink]
  | agreed link step links =>
    cases hm
    simp [links]
  | failed pool links =>
    cases hm
    exact Nat.le_of_eq links.symm

end Acquisition

namespace Client

theorem links_act (a : Act) (c : Client) (hub : Hub) :
    (c.act a hub).2.links = hub.links ∨ ∃ e b, a = .go ∧ c = .acquiring e b := by
  cases c with
  | away => cases a <;> exact .inl rfl
  | acquiring e b =>
    cases a with
    | go => exact .inr ⟨e, b, rfl, rfl⟩
    | _ => exact .inl rfl
  | holding h => cases a <;> exact .inl rfl

theorem length_links_act (a : Act) (c : Client) (hub : Hub) :
    hub.links.length ≤ (c.act a hub).2.links.length := by
  rcases links_act a c hub with hlinks | ⟨e, b, rfl, rfl⟩
  · exact Nat.le_of_eq (congrArg List.length hlinks).symm
  · rcases hub_go e b hub with hsame | hstep
    · exact Nat.le_of_eq (congrArg (·.links.length) hsame).symm
    · exact (Acquisition.course e hub b).length_links hstep

theorem untouched_act {a : Act} {c : Client} {hub : Hub} {n : Nat} (hn : n < hub.links.length)
    (hc : c.tenure.link? ≠ some n) : (c.act a hub).2.links[n]? = hub.links[n]? := by
  rcases links_act a c hub with hlinks | ⟨e, b, rfl, rfl⟩
  · rw [hlinks]
  · rcases hub_go e b hub with hsame | hstep
    · exact congrArg (·.links[n]?) hsame
    · exact (Acquisition.spares_step hstep).links n hn hc

theorem idle_act {a : Act} {c : Client} {hub : Hub} {x : IdleConnection}
    (hx : x ∈ (c.act a hub).2.pool.idle) : x ∈ hub.pool.idle ∨
      ∃ h t, c = .holding h ∧ a = .release ∧ h.transport = some t ∧
        x = ⟨h.id, h.key, t, h.tunneled, hub.now⟩ := by
  cases c with
  | away => cases a <;> exact .inl hx
  | acquiring e b =>
    cases a with
    | go =>
      rcases hub_go e b hub with hsame | hstep
      · have hx : x ∈ (go e b hub).2.pool.idle := hx
        rw [hsame] at hx
        exact .inl hx
      · exact .inl ((Acquisition.spares_step hstep).idle x hx)
    | _ => exact .inl hx
  | holding h =>
    cases a with
    | release =>
      simp only [act, Hub.release, Pool.release] at hx
      cases ht : h.transport with
      | none =>
        simp only [ht] at hx
        exact .inl hx
      | some t =>
        simp only [ht] at hx
        split at hx
        · rcases List.mem_cons.1 hx with rfl | hx
          · exact .inr ⟨h, t, rfl, rfl, ht, rfl⟩
          · exact .inl hx
        · exact .inl hx
    | _ => exact .inl hx

end Client

namespace Clientele

variable {proxies : Proxies} {config : PoolConfig} {s : Clientele} {acts : List Act} {a : Act}
  {n : Nat}

/-- The account after one more act. Only what is done for clients is done by the pool. -/
def book (n : Nat) (s : Clientele) (x : Account) (a : Act) : Account :=
  match a with
  | .client .. => x.after (s.apply a).hub.links[n]?
  | _ => { x with link := (s.apply a).hub.links[n]? }

def audit (n : Nat) (s : Clientele) (x : Account) : List Act → Account
  | [] => x
  | a :: acts => audit n (s.apply a) (book n s x a) acts

def account (s : Clientele) (acts : List Act) (n : Nat) : Account :=
  audit n s ⟨s.hub.links[n]?, [], []⟩ acts

theorem audit_concat (n : Nat) (s : Clientele) (x : Account) (acts : List Act) (a : Act) :
    audit n s x (acts ++ [a]) = book n (s.run acts) (audit n s x acts) a := by
  induction acts generalizing s x with
  | nil => rfl
  | cons b acts ih => exact ih (s.apply b) (book n s x b)

theorem account_concat (s : Clientele) (acts : List Act) (a : Act) (n : Nat) :
    s.account (acts ++ [a]) n = book n (s.run acts) (s.account acts n) a :=
  audit_concat n s _ acts a

theorem link_account (s : Clientele) (acts : List Act) (n : Nat) :
    (s.account acts n).link = (s.run acts).hub.links[n]? := by
  induction acts using List.reverseRecOn with
  | nil => rfl
  | append_singleton acts a ih =>
    rw [account_concat, run_concat]
    cases a <;> rfl

theorem account_client (s : Clientele) (acts : List Act) (i : Nat) (act : Client.Act) (n : Nat) :
    s.account (acts ++ [.client i act]) n =
      (s.account acts n).after ((s.run acts).apply (.client i act)).hub.links[n]? :=
  account_concat s acts _ n

theorem account_of_untouched {i : Nat} {act : Client.Act}
    (h : ((s.run acts).apply (.client i act)).hub.links[n]? = (s.run acts).hub.links[n]?) :
    s.account (acts ++ [.client i act]) n = s.account acts n := by
  rw [account_client, h, ← link_account]
  exact Account.after_self _

theorem account_of_unused (hn : (s.run acts).hub.links.length ≤ n) :
    s.account acts n = ⟨none, [], []⟩ := by
  induction acts using List.reverseRecOn with
  | nil =>
    have hnone : s.hub.links[n]? = none := List.getElem?_eq_none hn
    simp only [account, audit, hnone]
  | append_singleton acts a ih =>
    have hlink := link_account s (acts ++ [a]) n
    rw [List.getElem?_eq_none hn] at hlink
    rw [run_concat] at hn
    rw [account_concat] at hlink ⊢
    cases a with
    | client i act =>
      have hbefore := Client.length_links_act act ((s.run acts).client i) (s.run acts).hub
      rw [ih (Nat.le_trans hbefore hn)] at hlink ⊢
      simp only [book, Account.after] at hlink ⊢
      simp [hlink]
    | link m change =>
      rw [ih (by simpa [apply] using hn)] at hlink ⊢
      simp only [book] at hlink ⊢
      rw [hlink]
    | wait ms =>
      rw [ih hn] at hlink ⊢
      simp only [book] at hlink ⊢
      rw [hlink]

end Clientele
end HttpClient
