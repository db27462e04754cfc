import HttpClient.Proofs.Pool.Accounts
set_option autoImplicit false

/-!
Whose tunnel a connection is. Behind a proxy the pool asks once for the authority that the
connection is shared under, and gives the connection out when the proxy has agreed. Without a proxy
it neither writes nor reads; then a connection passes for tunnelled only if a holder made it so, and
it does so for everyone who gets it later.
-/

namespace HttpClient
namespace Clientele

variable {proxies : Proxies} {config : PoolConfig} {s : Clientele} {acts : List Act} {a : Act}
  {n : Nat}

/-- A holder has made a tunnel over the connection of this number. -/
def byHand (s : Clientele) (acts : List Act) (id : Nat) : Prop :=
  ∃ before i h, before ++ [.client i .tunnel] <+: acts ∧ (s.run before).client i = .holding h ∧
    h.transport.isSome = true ∧ h.id = id

theorem byHand_concat (s : Clientele) (acts : List Act) (a : Act) (id : Nat) :
    s.byHand (acts ++ [a]) id ↔ s.byHand acts id ∨ ∃ i h, a = .client i .tunnel ∧
      (s.run acts).client i = .holding h ∧ h.transport.isSome = true ∧ h.id = id := by
  constructor
  · rintro ⟨before, i, h, hb, hc, ht, hid⟩
    rcases List.prefix_concat_iff.1 hb with heq | hb
    · obtain ⟨rfl, ha⟩ := List.append_inj' heq rfl
      cases ha
      exact .inr ⟨i, h, rfl, hc, ht, hid⟩
    · exact .inl ⟨before, i, h, hb, hc, ht, hid⟩
  · rintro (⟨before, i, h, hb, hc, ht, hid⟩ | ⟨i, h, rfl, hc, ht, hid⟩)
    · exact ⟨before, i, h, hb.trans (List.prefix_append acts [a]), hc, ht, hid⟩
    · exact ⟨acts, i, h, List.prefix_refl _, hc, ht, hid⟩

/-- The connection is what the endpoint asks for: its own tunnel, or the way to it. -/
def Served (proxies : Proxies) (e : Endpoint) (byHand : Prop) (tunneled : Bool) (x : Account) :
    Prop :=
  match proxies.forScheme e.secure with
  | some proxy => tunneled = true ∧ x.Tunnelled proxy e.authority
  | none => (tunneled = true ↔ byHand) ∧ x.Direct e.authority

/-- The connection of this number and key serves some endpoint that has the key. -/
def Kept (proxies : Proxies) (config : PoolConfig) (acts : List Act) (key : String) (id : Nat)
    (tunneled : Bool) (n : Nat) : Prop :=
  ∃ e, (∃ j, .client j (.ask e) ∈ acts) ∧ key = proxies.keyFor e ∧
    Served proxies e ((new proxies config).byHand acts id) tunneled
      ((new proxies config).account acts n)

def Stands (proxies : Proxies) (config : PoolConfig) (acts : List Act) : Client → Prop
  | .acquiring e (.dialing n) =>
    ((new proxies config).account acts n).Fresh ((proxies.forScheme e.secure).getD e.authority)
  | .acquiring e (.tunnelling h parser) => ∃ proxy t, proxies.forScheme e.secure = some proxy ∧
    h.transport = some t ∧
    ((new proxies config).account acts t.link).Asked proxy e.authority parser
  | .holding h => ∀ t, h.transport = some t →
    Kept proxies config acts h.key h.id h.tunneled t.link
  | _ => True

structure Sound (proxies : Proxies) (config : PoolConfig) (acts : List Act) : Prop where
  clients : ∀ i, Stands proxies config acts (((new proxies config).run acts).client i)
  idle : ∀ c ∈ ((new proxies config).run acts).hub.pool.idle,
    Kept proxies config acts c.key c.id c.tunneled c.transport.link

/-- Links lead where they led, what was written on them stays, and only who holds one writes. -/
def Fair (s : Clientele) : Act → Prop
  | .link n change => ∀ l, s.hub.links[n]? = some l →
    (change l).target = l.target ∧ l.outbound <+: (change l).outbound ∧
      ((change l).outbound = l.outbound ∨
        ∃ i h, s.client i = .holding h ∧ h.transport.map (·.link) = some n)
  | _ => True

def AllFair (s : Clientele) : List Act → Prop
  | [] => True
  | a :: acts => s.Fair a ∧ AllFair (s.apply a) acts

theorem allFair_concat {s : Clientele} {acts : List Act} {a : Act} :
    s.AllFair (acts ++ [a]) ↔ s.AllFair acts ∧ (s.run acts).Fair a := by
  induction acts generalizing s with
  | nil => simp [AllFair, run]
  | cons b acts ih => simp [AllFair, ih, run, and_assoc]

section Sound

variable {key : String} {id : Nat} {tunneled : Bool} {i : Nat} {act : Client.Act}

theorem Kept.grown (h : Kept proxies config acts key id tunneled n)
    (haccount : ((new proxies config).account acts n).Grown
      ((new proxies config).account (acts ++ [a]) n))
    (hhand : (new proxies config).byHand (acts ++ [a]) id ↔ (new proxies config).byHand acts id) :
    Kept proxies config (acts ++ [a]) key id tunneled n := by
  obtain ⟨e, ⟨j, hj⟩, hkey, hserved⟩ := h
  refine ⟨e, ⟨j, List.mem_append_left [a] hj⟩, hkey, ?_⟩
  unfold Served at hserved ⊢
  split at hserved
  · exact ⟨hserved.1, hserved.2.grown haccount⟩
  · exact ⟨hserved.1.trans hhand.symm, hserved.2.grown haccount⟩

theorem Stands.frame {c : Client} (h : Stands proxies config acts c)
    (hgrown : ∀ n, c.tenure.link? = some n → ((new proxies config).account acts n).Grown
      ((new proxies config).account (acts ++ [a]) n))
    (hstill : (∀ x, c ≠ .holding x) → ∀ n, c.tenure.link? = some n →
      ((new proxies config).account acts n).Still ((new proxies config).account (acts ++ [a]) n))
    (hhand : ∀ x, c = .holding x → x.transport.isSome = true →
      ((new proxies config).byHand (acts ++ [a]) x.id ↔ (new proxies config).byHand acts x.id)) :
    Stands proxies config (acts ++ [a]) c := by
  cases c with
  | away => trivial
  | acquiring e b =>
    cases b with
    | start => trivial
    | dialing n => exact Account.Fresh.still h (hstill (by simp) n rfl)
    | tunnelling x parser =>
      obtain ⟨proxy, t, hproxy, ht, hasked⟩ := h
      exact ⟨proxy, t, hproxy, ht, hasked.still (hstill (by simp) t.link
        (by simp [Client.tenure, Acquisition.tenure, Tenure.link?, ht]))⟩
  | holding x =>
    intro t ht
    exact (h t ht).grown (hgrown t.link (by simp [Client.tenure, Tenure.link?, ht]))
      (hhand x rfl (by simp [ht]))

theorem byHand_of_ne (h : ∀ i, a ≠ .client i .tunnel) (id : Nat) :
    s.byHand (acts ++ [a]) id ↔ s.byHand acts id := by
  rw [byHand_concat, or_iff_left]
  rintro ⟨i, x, ha, -⟩
  exact h i ha

theorem grown_of_link {m : Nat} {change : Link → Link} (hf : (s.run acts).Fair (.link m change))
    (n : Nat) : (s.account acts n).Grown (s.account (acts ++ [.link m change]) n) := by
  rw [account_concat]
  refine ⟨fun l hl => ?_, rfl, rfl⟩
  rw [link_account] at hl
  simp only [book, apply, List.getElem?_modify, hl]
  by_cases hmn : m = n
  · subst hmn
    obtain ⟨htarget, hout, -⟩ := hf l hl
    exact ⟨change l, by simp, htarget, hout⟩
  · exact ⟨l, by simp [hmn], rfl, List.prefix_refl _⟩

theorem still_of_link {m : Nat} {change : Link → Link} (hf : (s.run acts).Fair (.link m change))
    (hn : ∀ i x, (s.run acts).client i = .holding x → x.transport.map (·.link) ≠ some n) :
    (s.account acts n).Still (s.account (acts ++ [.link m change]) n) := by
  rw [account_concat]
  refine ⟨fun l hl => ?_, rfl, rfl⟩
  rw [link_account] at hl
  simp only [book, apply, List.getElem?_modify, hl]
  by_cases hmn : m = n
  · subst hmn
    obtain ⟨htarget, -, hout | ⟨i, x, hc, hx⟩⟩ := hf l hl
    · exact ⟨change l, by simp, htarget, hout⟩
    · exact absurd hx (hn i x hc)
  · exact ⟨l, by simp [hmn], rfl, rfl⟩

theorem sound_link {m : Nat} {change : Link → Link} (h : Sound proxies config acts)
    (hf : ((new proxies config).run acts).Fair (.link m change)) :
    Sound proxies config (acts ++ [.link m change]) := by
  have hcustody := custody_run (custody_new proxies config) acts
  refine ⟨fun i => ?_, fun c hc => ?_⟩
  · rw [run_concat]
    refine (h.clients i).frame (fun n _ => grown_of_link hf n) (fun hc n hn => ?_)
      (fun x _ _ => byHand_of_ne (by simp) x.id)
    refine still_of_link hf fun j x hj hx => ?_
    have hsame : some j = some i := hcustody.links.apart (some j) (some i) n
      (by simpa [tenure, hj, Client.tenure, Tenure.link?] using hx) hn
    cases hsame
    exact hc x hj
  · rw [run_concat] at hc
    exact (h.idle c hc).grown (grown_of_link hf _) (byHand_of_ne (by simp) c.id)

theorem account_of_spared (hn : n < (s.run acts).hub.links.length)
    (hc : ((s.run acts).client i).tenure.link? ≠ some n) :
    s.account (acts ++ [.client i act]) n = s.account acts n :=
  account_of_untouched (Client.untouched_act hn hc)

theorem account_of_links
    (h : (((s.run acts).client i).act act (s.run acts).hub).2.links = (s.run acts).hub.links) :
    s.account (acts ++ [.client i act]) n = s.account acts n :=
  account_of_untouched (congrArg (·[n]?) h)

theorem stands_other {j : Nat} (h : Sound proxies config acts) (hj : j ≠ i) :
    Stands proxies config (acts ++ [.client i act]) (((new proxies config).run acts).client j) := by
  have hcustody := custody_run (custody_new proxies config) acts
  have hsame (n : Nat)
      (hn : (((new proxies config).run acts).client j).tenure.link? = some n) :
      (new proxies config).account (acts ++ [.client i act]) n =
        (new proxies config).account acts n := by
    refine account_of_spared (hcustody.links.below (some j) n hn) fun hi => hj ?_
    exact Option.some.inj (hcustody.links.apart (some j) (some i) n hn hi)
  refine (h.clients j).frame (fun n hn => ?_) (fun _ n hn => ?_) (fun x hx ht => ?_)
  · rw [hsame n hn]
    exact .refl _
  · rw [hsame n hn]
    exact .refl _
  · rw [byHand_concat, or_iff_left]
    rintro ⟨k, y, ha, hy, hyt, hid⟩
    cases ha
    refine hj (Option.some.inj (hcustody.ids.apart (some j) (some i) x.id ?_ ?_))
    · obtain ⟨t, ht⟩ := Option.isSome_iff_exists.1 ht
      simp [tenure, hx, Client.tenure, Tenure.id?, ht]
    · obtain ⟨t, ht⟩ := Option.isSome_iff_exists.1 hyt
      simp [tenure, hy, Client.tenure, Tenure.id?, ht, hid]

theorem kept_idle {c : IdleConnection} (h : Sound proxies config acts)
    (hc : c ∈ ((new proxies config).run acts).hub.pool.idle) :
    Kept proxies config (acts ++ [.client i act]) c.key c.id c.tunneled c.transport.link := by
  have hcustody := custody_run (custody_new proxies config) acts
  refine (h.idle c hc).grown ?_ ?_
  · have hstored : c.transport.link ∈
        ((new proxies config).run acts).hub.pool.idle.map (·.transport.link) :=
      List.mem_map_of_mem (f := fun c => c.transport.link) hc
    rw [account_of_spared (hcustody.links.storedBelow _ hstored)
      fun hi => hcustody.links.busy (some i) _ hi hstored]
    exact .refl _
  · rw [byHand_concat, or_iff_left]
    rintro ⟨k, y, ha, hy, hyt, hid⟩
    cases ha
    obtain ⟨t, ht⟩ := Option.isSome_iff_exists.1 hyt
    refine hcustody.ids.busy (some i) c.id ?_ (List.mem_map_of_mem hc)
    simp [tenure, hy, Client.tenure, Tenure.id?, ht, hid]

theorem lt_nextId_of_byHand (h : (new proxies config).byHand acts id) :
    id < ((new proxies config).run acts).hub.pool.nextId := by
  induction acts using List.reverseRecOn with
  | nil =>
    obtain ⟨before, j, x, hb, -⟩ := h
    simp at hb
  | append_singleton acts a ih =>
    have hcustody := custody_run (custody_new proxies config) acts
    have hnext := (custody_apply hcustody.rebase a).numbers
    rw [run_concat]
    rcases (byHand_concat _ acts a id).1 h with h | ⟨j, x, rfl, hx, hxt, rfl⟩
    · exact Nat.lt_of_lt_of_le (ih h) hnext
    · obtain ⟨t, ht⟩ := Option.isSome_iff_exists.1 hxt
      refine Nat.lt_of_lt_of_le (hcustody.ids.below (some j) x.id ?_) hnext
      simp [tenure, hx, Client.tenure, Tenure.id?, ht]

theorem Stands.aside {c : Client} (h : Stands proxies config acts c) (hact : act ≠ .tunnel)
    (hlinks : ((((new proxies config).run acts).client i).act act
      ((new proxies config).run acts).hub).2.links = ((new proxies config).run acts).hub.links) :
    Stands proxies config (acts ++ [.client i act]) c := by
  refine h.frame (fun n _ => ?_) (fun _ n _ => ?_)
    (fun x _ _ => byHand_of_ne (by simp [hact]) x.id)
  · rw [account_of_links hlinks]
    exact .refl _
  · rw [account_of_links hlinks]
    exact .refl _

theorem account_go {e : Endpoint} {b : Acquisition}
    (hc : ((new proxies config).run acts).client i = .acquiring e b) (n : Nat) :
    (new proxies config).account (acts ++ [.client i .go]) n =
      ((new proxies config).account acts n).after
        (Client.go e b ((new proxies config).run acts).hub).2.links[n]? := by
  rw [account_client, apply, hc]
  rfl

theorem stands_next {e : Endpoint} {b d : Acquisition} {hub : Hub} (h : Sound proxies config acts)
    (hc : ((new proxies config).run acts).client i = .acquiring e b)
    (hm : b.step e ((new proxies config).run acts).hub = .next d hub) :
    Stands proxies config (acts ++ [.client i .go]) (.acquiring e d) := by
  have hp : ((new proxies config).run acts).hub.pool.proxies = proxies :=
    proxies_run (new proxies config) acts
  have hcourse := Acquisition.course e ((new proxies config).run acts).hub b
  have hstands := h.clients i
  have haccount := account_go hc
  have hlink (n : Nat) := link_account (new proxies config) acts n
  rw [hc] at hstands
  rw [hm] at hcourse
  simp only [Client.go, hm] at haccount
  cases hcourse with
  | dial links =>
    have hnew := haccount ((new proxies config).run acts).hub.links.length
    rw [account_of_unused (Nat.le_refl _), links, List.getElem?_concat_length] at hnew
    simp only [Stands, hnew]
    have htarget : Acquisition.target ((new proxies config).run acts).hub e =
        (proxies.forScheme e.secure).getD e.authority := by rw [Acquisition.target, hp]
    exact ⟨⟨_, rfl, htarget, rfl⟩, rfl, rfl⟩
  | @ask n proxy l m _ link proxied asked links =>
    rw [hp] at proxied
    simp only [Stands, proxied, Option.getD_some] at hstands
    refine ⟨proxy, _, proxied, rfl, ?_⟩
    have hlt : n < ((new proxies config).run acts).hub.links.length :=
      (List.getElem?_eq_some_iff.1 link).1
    rw [haccount n, links, List.getElem?_set_self hlt]
    exact hstands.ask ((hlink n).trans link) asked
  | @next x p q n l m link step =>
    obtain ⟨proxy, t, hproxy, ht, hasked⟩ := hstands
    obtain ⟨hn, hl⟩ := Hub.linkOf_eq_some_iff.1 link
    rw [ht, Option.map_some, Option.some.injEq] at hn
    have hlt : n < ((new proxies config).run acts).hub.links.length :=
      (List.getElem?_eq_some_iff.1 hl).1
    refine ⟨proxy, t, hproxy, ht, ?_⟩
    rw [hn] at hasked ⊢
    rw [haccount n, Hub.setLink, List.getElem?_set_self hlt]
    exact hasked.next ((hlink n).trans hl) step

theorem stands_done {e : Endpoint} {b : Acquisition} {x : Handle} {hub : Hub}
    (h : Sound proxies config acts)
    (hc : ((new proxies config).run acts).client i = .acquiring e b)
    (hm : b.step e ((new proxies config).run acts).hub = .done x hub) :
    Stands proxies config (acts ++ [.client i .go]) (.holding x) := by
  have hp : ((new proxies config).run acts).hub.pool.proxies = proxies :=
    proxies_run (new proxies config) acts
  obtain ⟨j, hasked⟩ := asked_of_acquiring hc
  have hasked := List.mem_append_left [Act.client i .go] hasked
  have hcourse := Acquisition.course e ((new proxies config).run acts).hub b
  have hstands := h.clients i
  have haccount := account_go hc
  have hlink (n : Nat) := link_account (new proxies config) acts n
  rw [hc] at hstands
  rw [hm] at hcourse
  simp only [Client.go, hm] at haccount
  intro t ht
  cases hcourse with
  | reuse stored links =>
    cases ht
    exact kept_idle h stored
  | @direct n _ proxy links =>
    cases ht
    rw [hp] at proxy
    simp only [Stands, proxy, Option.getD_none] at hstands
    refine ⟨e, ⟨j, hasked⟩, by rw [Pool.keyFor, hp], ?_⟩
    have hnone : ¬(new proxies config).byHand acts
        ((new proxies config).run acts).hub.pool.nextId :=
      fun hhand => Nat.lt_irrefl _ (lt_nextId_of_byHand hhand)
    rw [haccount n, links, ← hlink, Account.after_self, Served, proxy]
    exact ⟨by simp [byHand_of_ne, hnone], hstands.direct⟩
  | @agreed x p n l m _ link step links =>
    obtain ⟨proxy, t', hproxy, ht', hread⟩ := hstands
    obtain ⟨hn, hl⟩ := Hub.linkOf_eq_some_iff.1 link
    rw [ht', Option.map_some, Option.some.injEq] at hn
    have hlt : n < ((new proxies config).run acts).hub.links.length :=
      (List.getElem?_eq_some_iff.1 hl).1
    cases ht'.symm.trans ht
    refine ⟨e, ⟨j, hasked⟩, asking_run acts i e _ _ hc rfl, ?_⟩
    rw [hn] at hread ⊢
    rw [haccount n, links, List.getElem?_set_self hlt, Served, hproxy]
    exact ⟨rfl, hread.done ((hlink n).trans hl) step⟩

theorem stands_go {e : Endpoint} {b : Acquisition} (h : Sound proxies config acts)
    (hc : ((new proxies config).run acts).client i = .acquiring e b) :
    Stands proxies config (acts ++ [.client i .go])
      (Client.go e b ((new proxies config).run acts).hub).1 := by
  unfold Client.go
  cases hm : b.step e ((new proxies config).run acts).hub with
  | wait =>
    have hstands := h.clients i
    rw [hc] at hstands
    refine hstands.aside (by simp) ?_
    simp only [hc, Client.act, Client.go, hm]
  | fail error hub => trivial
  | next d hub => exact stands_next h hc hm
  | done x hub => exact stands_done h hc hm

theorem stands_held {x : Handle} (h : Sound proxies config acts)
    (hc : ((new proxies config).run acts).client i = .holding x) :
    Stands proxies config (acts ++ [.client i act])
      ((Client.holding x).act act ((new proxies config).run acts).hub).1 := by
  have hstands := h.clients i
  rw [hc] at hstands
  have hlinks : ((((new proxies config).run acts).client i).act act
      ((new proxies config).run acts).hub).2.links =
        ((new proxies config).run acts).hub.links := by
    refine (Client.links_act act _ _).resolve_right ?_
    rintro ⟨e, b, -, hb⟩
    cases hc.symm.trans hb
  cases act with
  | release =>
    intro t ht
    cases (Hub.transport_release _ x).symm.trans ht
  | discard =>
    intro t ht
    cases ht
  | markClosed =>
    have hmarked : Stands proxies config acts (.holding x.markClosed) := hstands
    exact hmarked.aside (by simp) hlinks
  | tunnel =>
    intro t ht
    obtain ⟨e, ⟨j, hj⟩, hkey, hserved⟩ := hstands t ht
    have hhand : (new proxies config).byHand (acts ++ [.client i .tunnel]) x.id :=
      (byHand_concat _ _ _ _).2 (.inr ⟨i, x, rfl, hc, Option.isSome_iff_exists.2 ⟨t, ht⟩, rfl⟩)
    refine ⟨e, ⟨j, List.mem_append_left _ hj⟩, hkey, ?_⟩
    rw [account_of_links hlinks]
    unfold Served at hserved ⊢
    split at hserved
    · exact ⟨rfl, hserved.2⟩
    · exact ⟨iff_of_true rfl hhand, hserved.2⟩
  | secure session =>
    have hsecured : Stands proxies config acts (.holding (Client.secure session x)) := by
      intro t ht
      cases session with
      | none => cases ht
      | some session =>
        obtain ⟨t', ht', rfl⟩ := Option.map_eq_some_iff.1 ht
        exact hstands t' ht'
    exact hsecured.aside (by simp) hlinks
  | drop => trivial
  | _ => exact hstands.aside (by simp) hlinks

theorem stands_own (h : Sound proxies config acts) (i : Nat) (act : Client.Act) :
    Stands proxies config (acts ++ [.client i act])
      ((((new proxies config).run acts).client i).act act
        ((new proxies config).run acts).hub).1 := by
  have hstands := h.clients i
  cases hc : ((new proxies config).run acts).client i with
  | away => cases act <;> trivial
  | holding x => exact stands_held h hc
  | acquiring e b =>
    rw [hc] at hstands
    cases act with
    | go => exact stands_go h hc
    | cancel => trivial
    | tunnel =>
      refine hstands.frame (fun n _ => ?_) (fun _ n _ => ?_) (fun x hx => by cases hx)
      · rw [account_of_links (by rw [hc]; rfl)]
        exact .refl _
      · rw [account_of_links (by rw [hc]; rfl)]
        exact .refl _
    | _ => exact hstands.aside (by simp) (by rw [hc]; rfl)

theorem sound_client (h : Sound proxies config acts) (i : Nat) (act : Client.Act) :
    Sound proxies config (acts ++ [.client i act]) := by
  refine ⟨fun j => ?_, fun c hc => ?_⟩
  · rw [run_concat]
    by_cases hj : j = i
    · subst hj
      simpa [apply] using stands_own h j act
    · simpa [apply, hj] using stands_other h hj
  · rw [run_concat] at hc
    rcases Client.idle_act hc with hc | ⟨x, t, hx, rfl, ht, rfl⟩
    · exact kept_idle h hc
    · have hstands := h.clients i
      rw [hx] at hstands
      refine (hstands t ht).grown ?_ (byHand_of_ne (by simp) x.id)
      rw [account_of_links (by rw [hx]; rfl)]
      exact .refl _

theorem sound_wait (h : Sound proxies config acts) (ms : Nat) :
    Sound proxies config (acts ++ [.wait ms]) := by
  have hsame (n : Nat) : (new proxies config).account (acts ++ [.wait ms]) n =
      (new proxies config).account acts n := by
    rw [account_concat]
    simp only [book, apply, ← link_account]
  refine ⟨fun i => ?_, fun c hc => ?_⟩
  · rw [run_concat]
    refine (h.clients i).frame (fun n _ => ?_) (fun _ n _ => ?_)
      (fun x _ _ => byHand_of_ne (by simp) x.id)
    · rw [hsame n]
      exact .refl _
    · rw [hsame n]
      exact .refl _
  · rw [run_concat] at hc
    refine (h.idle c hc).grown ?_ (byHand_of_ne (by simp) c.id)
    rw [hsame]
    exact .refl _

/-- Every connection serves the endpoint that it is shared under, whatever anyone does. -/
theorem sound_run (h : (new proxies config).AllFair acts) : Sound proxies config acts := by
  induction acts using List.reverseRecOn with
  | nil =>
    refine ⟨fun i => trivial, fun c hc => ?_⟩
    cases hc
  | append_singleton acts a ih =>
    obtain ⟨hfair, hact⟩ := allFair_concat.1 h
    cases a with
    | client i act => exact sound_client (ih hfair) i act
    | link n change => exact sound_link (ih hfair) hact
    | wait ms => exact sound_wait (ih hfair) ms

theorem gone_of_failed {e : Endpoint} {b : Acquisition} {error : TunnelError} {hub : Hub}
    (h : Sound proxies config acts)
    (hc : ((new proxies config).run acts).client i = .acquiring e b)
    (hd : b.step e ((new proxies config).run acts).hub = .fail (.tunnel error) hub) :
    (((new proxies config).run acts).apply (.client i .go)).gone
      (b.number ((new proxies config).run acts).hub) := by
  have hcustody := custody_run (custody_new proxies config) acts
  have hcourse := Acquisition.course e ((new proxies config).run acts).hub b
  have hstands := h.clients i
  have hact : (((new proxies config).run acts).client i).act .go
      ((new proxies config).run acts).hub = (.away, hub) := by
    simp only [hc, Client.act, Client.go, hd]
  have hholds (j id : Nat)
      (hj : (((new proxies config).run acts).apply (.client i .go)).holds j id) :
      j ≠ i ∧ ((new proxies config).run acts).holds j id := by
    by_cases hji : j = i
    · subst hji
      simp [holds, apply, hact, Client.tenure, Tenure.id?] at hj
    · exact ⟨hji, by simpa [holds, apply, hji] using hj⟩
  have hhub : (((new proxies config).run acts).apply (.client i .go)).hub = hub := by
    simp [apply, hact]
  rw [hd] at hcourse
  rw [hc] at hstands
  cases hcourse with
  | unasked idle next links =>
    refine ⟨?_, fun j hj => ?_, fun hidle => ?_⟩
    · rw [hhub, next]
      exact Nat.lt_succ_self _
    · exact Nat.lt_irrefl _ (hcustody.ids.below (some j) _ (hholds j _ hj).2)
    · rw [idleIds, hhub, idle] at hidle
      exact Nat.lt_irrefl _ (hcustody.ids.storedBelow _ hidle)
  | @failed x p _ _ pool links =>
    obtain ⟨proxy, t, -, ht, -⟩ := hstands
    have hown : (((new proxies config).run acts).tenure .nothing (some i)).id? = some x.id := by
      simp [tenure, hc, Client.tenure, Acquisition.tenure, Tenure.id?, ht]
    refine ⟨?_, fun j hj => ?_, fun hidle => ?_⟩
    · rw [hhub, pool]
      exact hcustody.ids.below (some i) x.id hown
    · obtain ⟨hji, hj⟩ := hholds j x.id hj
      exact hji (Option.some.inj (hcustody.ids.apart (some j) (some i) x.id hj hown))
    · rw [idleIds, hhub, pool] at hidle
      exact hcustody.ids.busy (some i) x.id hown hidle

end Sound

/-- A connection that is given out for an endpoint is its own tunnel, which the pool has asked for
once and before anything else; without a proxy it leads to the endpoint itself, and the pool has
left it alone. Only a holder can make a tunnel of such a connection, and then it passes for one for
good. What failed to become a tunnel is never seen again. -/
theorem own_tunnel (proxies : Proxies) (config : PoolConfig) (acts : List Act)
    (asks : ∀ i e, .client i (.ask e) ∈ acts → ∃ u : Url, u.Given ∧ Endpoint.ofUrl u = .ok e)
    (fair : (new proxies config).AllFair acts) :
    let s := (new proxies config).run acts
    (∀ i e b h hub, s.client i = .acquiring e b → b.step e s.hub = .done h hub →
      ∃ n l, hub.linkOf h = some (n, l) ∧
        let x := (new proxies config).account (acts ++ [.client i .go]) n
        match proxies.forScheme e.secure with
        | some proxy => l.target = proxy ∧ RequestHead.encodeConnect e.authority = .ok x.wrote ∧
          x.wrote <+: l.outbound ∧ (∃ rest, ResponseHead.final? x.read = some (200, rest)) ∧
          h.tunneled = true
        | none => l.target = e.authority ∧ x.wrote = [] ∧ x.read = [] ∧
          (h.tunneled = true ↔ (new proxies config).byHand acts h.id)) ∧
    ∀ i e b error hub, s.client i = .acquiring e b →
      b.step e s.hub = .fail (.tunnel error) hub →
      ∀ more, ¬((s.apply (.client i .go)).run more).placed (b.number s.hub) := by
  intro s
  refine ⟨fun i e b h hub hc hd => ?_, fun i e b error hub hc hd more => ?_⟩
  · have hash (e : Endpoint) (hask : ∃ j, .client j (.ask e) ∈ acts ++ [.client i .go]) :
        '#' ∉ e.authority.toList := by
      obtain ⟨j, hj⟩ := hask
      obtain ⟨u, hu, hofUrl⟩ := asks j e (by simpa using hj)
      exact Endpoint.hash_not_mem_authority (Endpoint.hash_not_mem_host hu hofUrl)
    have hsound : Sound proxies config (acts ++ [.client i .go]) :=
      sound_run (allFair_concat.2 ⟨fair, trivial⟩)
    obtain ⟨j, hj⟩ := asked_of_acquiring hc
    obtain ⟨n, l, hlink⟩ := Acquisition.linkOf_of_done hd
    obtain ⟨t, ht, rfl⟩ := Option.map_eq_some_iff.1 (Hub.linkOf_eq_some_iff.1 hlink).1
    have hact : (s.client i).act .go s.hub = (.holding h, hub) := by
      simp only [hc, Client.act, Client.go, hd]
    have hafter : (s.apply (.client i .go)).client i = .holding h ∧
        (s.apply (.client i .go)).hub = hub := by
      simp [apply, hact]
    have hstands := hsound.clients i
    rw [run_concat, hafter.1] at hstands
    obtain ⟨e₀, hasked, hkey, hserved⟩ := hstands t ht
    obtain ⟨hauthority, hproxy⟩ := Proxies.keyFor_inj (hash e₀ hasked)
      (hash e ⟨j, List.mem_append_left _ hj⟩) (hkey.symm.trans (key_of_done hc hd))
    have hnow : ((new proxies config).account (acts ++ [.client i .go]) t.link).link = some l := by
      rw [link_account, run_concat, hafter.2]
      exact (Hub.linkOf_eq_some_iff.1 hlink).2
    refine ⟨t.link, l, hlink, ?_⟩
    unfold Served at hserved
    rw [hauthority, hproxy] at hserved
    dsimp only
    split at hserved
    · obtain ⟨htunneled, ⟨m, hm, htarget, hout⟩, hwrote, hread⟩ := hserved
      cases hm.symm.trans hnow
      exact ⟨htarget, hwrote, hout, hread, htunneled⟩
    · obtain ⟨hhand, ⟨m, hm, htarget⟩, hwrote, hread⟩ := hserved
      cases hm.symm.trans hnow
      exact ⟨htarget, hwrote, hread, hhand.trans (byHand_of_ne (by simp) h.id)⟩
  · have hcustody := custody_apply (custody_run (custody_new proxies config) acts) (.client i .go)
    have hgone := gone_run hcustody (gone_of_failed (sound_run fair) hc hd) more
    rintro (⟨j, hj⟩ | hidle)
    · exact hgone.2.1 j hj
    · exact hgone.2.2 hidle

/-- A tunnel is made and given back, and the next client asks for the same origin. -/
def throughProxy : List Act :=
  [.client 0 (.ask ⟨"h.example", 80, false⟩), .client 0 .go,
    .link 0 fun l => { l with dial := .connected }, .client 0 .go,
    .link 0 fun l => { l with inbound := Bytes.ofText "HTTP/1.1 200 OK\r\n\r\n" },
    .client 0 .go, .client 0 .release, .client 1 (.ask ⟨"h.example", 80, false⟩)]

theorem given_throughProxy : ∀ i e, .client i (.ask e) ∈ throughProxy →
    ∃ u : Url, u.Given ∧ Endpoint.ofUrl u = .ok e := by
  intro i e hm
  have he : e = ⟨"h.example", 80, false⟩ := by
    simp only [throughProxy, List.mem_cons, List.not_mem_nil, or_false] at hm
    rcases hm with hm | hm | hm | hm | hm | hm | hm | hm <;> cases hm <;> rfl
  have hparse : Url.parse "http://h.example/" =
      .ok ⟨"http", "", none, some "h.example", none, .segments [""], none, none⟩ := by
    decide +kernel
  rw [he]
  exact ⟨_, .parse hparse, by decide +kernel⟩

theorem allFair_throughProxy (proxies : Proxies) :
    (new proxies .standard).AllFair throughProxy :=
  ⟨trivial, trivial, fun _ _ => ⟨rfl, List.prefix_refl _, .inl rfl⟩, trivial,
    fun _ _ => ⟨rfl, List.prefix_refl _, .inl rfl⟩, trivial, trivial, trivial, trivial⟩

theorem client_throughProxy :
    ((new ⟨some "proxy.example:3128", none⟩ .standard).run throughProxy).client 1 =
      .acquiring ⟨"h.example", 80, false⟩ .start := rfl

theorem done_throughProxy : ∃ hub,
    Acquisition.start.step ⟨"h.example", 80, false⟩
        ((new ⟨some "proxy.example:3128", none⟩ .standard).run throughProxy).hub =
      .done ⟨1, "proxy.example:3128#h.example:80", some ⟨0, none⟩, true, true, false⟩ hub := by
  refine ⟨⟨⟨.standard, ⟨some "proxy.example:3128", none⟩, [], [1], 2⟩,
    [⟨"proxy.example:3128", .connected, [], none,
      Bytes.ofText "CONNECT h.example:80 HTTP/1.1\r\nHost: h.example:80\r\n\r\n", none⟩], 0⟩, ?_⟩
  decide +kernel

theorem own_tunnel_throughProxy :
    (∀ i e, .client i (.ask e) ∈ throughProxy →
      ∃ u : Url, u.Given ∧ Endpoint.ofUrl u = .ok e) ∧
    (new ⟨some "proxy.example:3128", none⟩ .standard).AllFair throughProxy ∧
    ∃ h hub n l request, Acquisition.start.step ⟨"h.example", 80, false⟩
        ((new ⟨some "proxy.example:3128", none⟩ .standard).run throughProxy).hub = .done h hub ∧
      h.reused = true ∧ hub.linkOf h = some (n, l) ∧ l.target = "proxy.example:3128" ∧
      RequestHead.encodeConnect "h.example:80" = .ok request ∧ request <+: l.outbound := by
  refine ⟨given_throughProxy, allFair_throughProxy _, ?_⟩
  obtain ⟨hub, hd⟩ := done_throughProxy
  obtain ⟨n, l, hlink, htarget, hwrote, hout, -, -⟩ :=
    (own_tunnel ⟨some "proxy.example:3128", none⟩ .standard throughProxy given_throughProxy
      (allFair_throughProxy _)).1 1 _ _ _ _ client_throughProxy hd
  have hauthority : (⟨"h.example", 80, false⟩ : Endpoint).authority = "h.example:80" := by
    decide +kernel
  rw [hauthority] at hwrote
  exact ⟨_, hub, n, l, _, hd, rfl, hlink, htarget, hwrote, hout⟩

/-- A holder makes a tunnel over a connection for which there is no proxy, and gives it back. -/
def tunnelledByHand : List Act :=
  [.client 0 (.ask ⟨"proxy.example", 3128, false⟩), .client 0 .go,
    .link 0 fun l => { l with dial := .connected }, .client 0 .go,
    .link 0 fun l => { l with
      outbound := Bytes.ofText "CONNECT h.example:443 HTTP/1.1\r\nHost: h.example:443\r\n\r\n" },
    .client 0 .tunnel, .client 0 .release, .client 1 (.ask ⟨"proxy.example", 3128, false⟩)]

/-- It is given to the next who asks for the proxy itself, and passes for a tunnel: the requests
that are meant for the one go to the other. -/
theorem tunnelled_given_direct :
    let s := (new .none .standard).run tunnelledByHand
    (∀ i e, .client i (.ask e) ∈ tunnelledByHand →
      ∃ u : Url, u.Given ∧ Endpoint.ofUrl u = .ok e) ∧
    (new .none .standard).AllFair tunnelledByHand ∧
    ∃ e h hub, s.client 1 = .acquiring e .start ∧ Acquisition.start.step e s.hub = .done h hub ∧
      Proxies.none.forScheme e.secure = none ∧ h.reused = true ∧ h.tunneled = true := by
  refine ⟨fun i e hm => ?_, ?_, ?_⟩
  · have he : e = ⟨"proxy.example", 3128, false⟩ := by
      simp only [tunnelledByHand, List.mem_cons, List.not_mem_nil, or_false] at hm
      rcases hm with hm | hm | hm | hm | hm | hm | hm | hm <;> cases hm <;> rfl
    have hparse : Url.parse "http://proxy.example:3128/" =
        .ok ⟨"http", "", none, some "proxy.example", some 3128, .segments [""], none, none⟩ := by
      decide +kernel
    rw [he]
    exact ⟨_, .parse hparse, by decide +kernel⟩
  · refine ⟨trivial, trivial, fun _ _ => ⟨rfl, List.prefix_refl _, .inl rfl⟩, trivial,
      fun l hl => ?_, trivial, trivial, trivial, trivial⟩
    cases hl
    exact ⟨rfl, List.nil_prefix, .inr ⟨0, _, rfl, rfl⟩⟩
  · refine ⟨⟨"proxy.example", 3128, false⟩,
      ⟨1, "proxy.example:3128", some ⟨0, none⟩, true, true, false⟩,
      ⟨⟨.standard, .none, [], [1], 2⟩, [⟨"proxy.example:3128", .connected, [], none,
        Bytes.ofText "CONNECT h.example:443 HTTP/1.1\r\nHost: h.example:443\r\n\r\n", none⟩], 0⟩,
      rfl, ?_, rfl, rfl, rfl⟩
    decide +kernel

end Clientele
end HttpClient
