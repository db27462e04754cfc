import HttpClient.Proofs.Pool.Clients
import HttpClient.Proofs.Text.Words
import HttpClient.Proofs.Url.Plain
import Mathlib.Data.List.Induction
set_option autoImplicit false

/-!
For whom a connection was made, and to whom it is given later. Connections are shared under a key
that tells the host, the port and the proxy. It does not tell whether the endpoint is a secure one,
unless plain and secure endpoints have different proxies.
-/

namespace HttpClient

theorem Text.append_cons_inj {c : Char} {front front' back back' : List Char} (h : c ∉ back)
    (h' : c ∉ back') (heq : front ++ c :: back = front' ++ c :: back') :
    front = front' ∧ back = back' := by
  have hreverse := congrArg (splitFirst c ∘ List.reverse) heq
  simp only [Function.comp, List.reverse_append, List.reverse_cons, List.append_assoc,
    List.cons_append, List.nil_append] at hreverse
  rw [splitFirst_append (List.mem_reverse.not.2 h), splitFirst_append (List.mem_reverse.not.2 h'),
    Prod.mk.injEq, Option.some.injEq, List.reverse_inj, List.reverse_inj] at hreverse
  exact ⟨hreverse.2, hreverse.1⟩

namespace Endpoint

variable {e e' : Endpoint}

theorem toList_authority (e : Endpoint) :
    e.authority.toList = e.host.toList ++ ':' :: Numeral.print 10 e.port := by
  simp [authority, Numeral.decimal]

theorem authority_inj (h : e.authority = e'.authority) : e.host = e'.host ∧ e.port = e'.port := by
  have hcolon (n : Nat) : ':' ∉ Numeral.print 10 n := by
    have hprint : ∀ c ∈ Numeral.print 10 n, c ≠ ':' :=
      Numeral.print_chars (by decide) (by decide) (by decide)
    exact fun hm => hprint ':' hm rfl
  have htext := congrArg String.toList h
  rw [toList_authority, toList_authority] at htext
  obtain ⟨hhost, hport⟩ := Text.append_cons_inj (hcolon _) (hcolon _) htext
  have hread := congrArg (Numeral.read? 10) hport
  rw [Numeral.read?_print (by decide) (by decide), Numeral.read?_print (by decide) (by decide),
    Option.some.injEq] at hread
  exact ⟨String.toList_inj.1 hhost, hread⟩

theorem hash_not_mem_authority (h : '#' ∉ e.host.toList) : '#' ∉ e.authority.toList := by
  rw [toList_authority]
  have hport : '#' ∉ Numeral.print 10 e.port :=
    Host.hash_not_mem_of_domainChar (Host.domainChar_print 10 e.port (by decide) (by decide))
  simp [h, hport]

theorem found_of_ofUrl {u : Url} (h : ofUrl u = .ok e) :
    (u.scheme = "http" ∨ u.scheme = "https") ∧ u.hostText = some e.host := by
  unfold ofUrl at h
  split at h
  · next host port htext _ =>
    dsimp only at h
    split at h
    · next hplain =>
      cases h
      exact ⟨.inl hplain, htext⟩
    split at h
    · next hsecure =>
      cases h
      exact ⟨.inr hsecure, htext⟩
    · cases h
  · dsimp only at h
    split at h
    · cases h
    · split at h <;> cases h

theorem hash_not_mem_host {u : Url} (hu : u.Given) (h : ofUrl u = .ok e) :
    '#' ∉ e.host.toList := by
  obtain ⟨hscheme, htext⟩ := found_of_ofUrl h
  exact hu.whole hscheme e.host (Option.filter_eq_some_iff.1 htext).1

end Endpoint

namespace Proxies

variable {p : Proxies} {e e' : Endpoint}

/-- Behind a proxy the number sign ends its name, and no authority has one. -/
theorem keyFor_inj (h : '#' ∉ e.authority.toList) (h' : '#' ∉ e'.authority.toList)
    (hkey : p.keyFor e = p.keyFor e') :
    e.authority = e'.authority ∧ p.forScheme e.secure = p.forScheme e'.secure := by
  have htext := congrArg String.toList hkey
  unfold keyFor at hkey htext
  cases hp : p.forScheme e.secure with
  | none =>
    cases hp' : p.forScheme e'.secure with
    | none =>
      simp only [hp, hp'] at hkey
      exact ⟨hkey, rfl⟩
    | some proxy' =>
      simp only [hp, hp', String.toList_append] at htext
      rw [htext] at h
      simp at h
  | some proxy =>
    cases hp' : p.forScheme e'.secure with
    | none =>
      simp only [hp, hp', String.toList_append] at htext
      rw [← htext] at h'
      simp at h'
    | some proxy' =>
      have hsplit : proxy.toList ++ '#' :: e.authority.toList =
          proxy'.toList ++ '#' :: e'.authority.toList := by
        simpa [hp, hp'] using htext
      obtain ⟨hproxy, hauthority⟩ := Text.append_cons_inj h h' hsplit
      exact ⟨String.toList_inj.1 hauthority, congrArg some (String.toList_inj.1 hproxy)⟩

theorem keyFor_congr (hhost : e.host = e'.host) (hport : e.port = e'.port)
    (hproxy : p.forScheme e.secure = p.forScheme e'.secure) : p.keyFor e = p.keyFor e' := by
  rw [keyFor, keyFor, hproxy, Endpoint.authority, Endpoint.authority, hhost, hport]

theorem secure_of_forScheme {b b' : Bool} (hne : p.plain ≠ p.secure)
    (h : p.forScheme b = p.forScheme b') : b = b' := by
  cases b <;> cases b'
  · rfl
  · exact absurd h hne
  · exact absurd h.symm hne
  · rfl

theorem keyFor_eq_iff (h : '#' ∉ e.host.toList) (h' : '#' ∉ e'.host.toList) :
    p.keyFor e = p.keyFor e' ↔
      e.host = e'.host ∧ e.port = e'.port ∧ p.forScheme e.secure = p.forScheme e'.secure := by
  constructor
  · intro hkey
    obtain ⟨hauthority, hproxy⟩ := keyFor_inj (Endpoint.hash_not_mem_authority h)
      (Endpoint.hash_not_mem_authority h') hkey
    obtain ⟨hhost, hport⟩ := Endpoint.authority_inj hauthority
    exact ⟨hhost, hport, hproxy⟩
  · rintro ⟨hhost, hport, hproxy⟩
    exact keyFor_congr hhost hport hproxy

end Proxies

/-- What a connection keeps for life: its number, and the key that it is shared under. -/
abbrev Label := Nat × String

def Handle.label (h : Handle) : Label := (h.id, h.key)

def Hub.labels (hub : Hub) : List Label := hub.pool.idle.map fun c => (c.id, c.key)

theorem Hub.label_of_takeIdle {hub hub' : Hub} {key : String} {h : Handle}
    (ht : hub.takeIdle key = (some h, hub')) : h.label ∈ hub.labels ∧ h.key = key := by
  unfold Hub.takeIdle Pool.takeIdle at ht
  dsimp only at ht
  split at ht
  · cases ht
  · next c kept hk =>
    cases ht
    obtain ⟨hc, hkey, -⟩ := Pool.takeFrom_some hk
    exact ⟨List.mem_map_of_mem (f := fun c => (c.id, c.key)) hc, hkey⟩

theorem Hub.proxies_of_takeIdle {hub hub' : Hub} {key : String} {h : Option Handle}
    (ht : hub.takeIdle key = (h, hub')) : hub'.pool.proxies = hub.pool.proxies := by
  unfold Hub.takeIdle Pool.takeIdle at ht
  dsimp only at ht
  split at ht <;> cases ht <;> rfl

namespace Acquisition

variable {e : Endpoint} {a b : Acquisition} {hub hub' : Hub} {m : Move} {label : Label}

def label? : Acquisition → Option Label
  | .tunnelling h _ => some h.label
  | _ => none

def Move.label? : Move → Option Label
  | .next a _ => a.label?
  | .done h _ => some h.label
  | _ => none

/-- Where an acquisition has its connection from. -/
inductive Source (e : Endpoint) (a : Acquisition) (hub hub' : Hub) (label : Label) : Prop where
  | idle (stored : label ∈ hub.labels) (key : label.2 = hub.pool.keyFor e)
  | kept (own : a.label? = some label)
  | made (new : label = (hub.pool.nextId, hub.pool.keyFor e))
      (next : hub'.pool.nextId = hub.pool.nextId + 1)

theorem Source.key (h : Source e a hub hub' label)
    (ha : ∀ label, a.label? = some label → label.2 = hub.pool.keyFor e) :
    label.2 = hub.pool.keyFor e := by
  cases h with
  | idle stored key => exact key
  | kept own => exact ha label own
  | made new next => rw [new]

theorem source_of_connect {n : Nat} {l : Link} (hm : connect e n l hub = m)
    (hl : m.label? = some label) (hh : m.hub? = some hub') : Source e a hub hub' label := by
  unfold connect at hm
  rcases hr : hub.register (hub.pool.keyFor e) n with ⟨x, hub₁⟩
  obtain ⟨hx, hnext⟩ : x.label = (hub.pool.nextId, hub.pool.keyFor e) ∧
      hub₁.pool.nextId = hub.pool.nextId + 1 := by
    cases hr
    exact ⟨rfl, rfl⟩
  simp only [hr] at hm
  split at hm
  · cases hm
    cases hl
    cases hh
    exact .made hx hnext
  · split at hm <;> cases hm <;> cases hl
    cases hh
    exact .made hx hnext

theorem source_of_step (hm : a.step e hub = m) (hl : m.label? = some label)
    (hh : m.hub? = some hub') : Source e a hub hub' label := by
  cases a with
  | start =>
    simp only [step, begin] at hm
    split at hm <;> cases hm <;> cases hl
    next ht =>
    obtain ⟨hstored, hkey⟩ := Hub.label_of_takeIdle ht
    exact .idle hstored hkey
  | dialing n =>
    simp only [step] at hm
    split at hm
    · cases hm
      cases hl
    · split at hm
      · cases hm
        cases hl
      · cases hm
        cases hl
      · exact source_of_connect hm hl hh
  | tunnelling x parser =>
    simp only [step] at hm
    split at hm
    · cases hm
      cases hl
    · split at hm <;> cases hm <;> cases hl
      · exact .kept rfl
      · exact .kept rfl

theorem proxies_of_step (hh : (a.step e hub).hub? = some hub') :
    hub'.pool.proxies = hub.pool.proxies := by
  cases a with
  | start =>
    simp only [step, begin] at hh
    rcases ht : hub.takeIdle (hub.pool.keyFor e) with ⟨_ | x, hub₁⟩
    all_goals
      have htake := Hub.proxies_of_takeIdle ht
      simp only [ht] at hh
      cases hh
      exact htake
  | dialing n =>
    simp only [step, connect] at hh
    rcases hr : hub.register (hub.pool.keyFor e) n with ⟨x, hub₁⟩
    have hreg : hub₁.pool.proxies = hub.pool.proxies := by
      cases hr
      rfl
    simp only [hr] at hh
    repeat' split at hh
    all_goals cases hh
    · rfl
    all_goals exact hreg
  | tunnelling x parser =>
    simp only [step] at hh
    repeat' split at hh
    all_goals cases hh
    all_goals rfl

end Acquisition

namespace Client

variable {a : Act} {c : Client} {hub : Hub} {label : Label}

def label? : Client → Option Label
  | .away => none
  | .acquiring _ a => a.label?
  | .holding h => some h.label

def Makes (a : Act) (c : Client) (hub : Hub) (label : Label) : Prop :=
  ∃ e b, a = .go ∧ c = .acquiring e b ∧ label = (hub.pool.nextId, hub.pool.keyFor e) ∧
    (c.act a hub).2.pool.nextId = hub.pool.nextId + 1

theorem label_go {e : Endpoint} {b : Acquisition} (hl : (go e b hub).1.label? = some label) :
    label ∈ hub.labels ∨ b.label? = some label ∨ Makes .go (.acquiring e b) hub label := by
  have hsource (hub' : Hub) (hm : (b.step e hub).label? = some label)
      (hh : (b.step e hub).hub? = some hub') (hgo : (go e b hub).2 = hub') :
      label ∈ hub.labels ∨ b.label? = some label ∨ Makes .go (.acquiring e b) hub label := by
    cases Acquisition.source_of_step rfl hm hh with
    | idle stored key => exact .inl stored
    | kept own => exact .inr (.inl own)
    | made new next => exact .inr (.inr ⟨e, b, rfl, rfl, new, by rw [act, hgo, next]⟩)
  unfold go at hl hsource
  cases hm : b.step e hub with
  | wait =>
    simp only [hm] at hl
    exact .inr (.inl hl)
  | next d hub' =>
    simp only [hm] at hl hsource
    exact hsource hub' hl rfl rfl
  | done h hub' =>
    simp only [hm] at hl hsource
    exact hsource hub' hl rfl rfl
  | fail error hub' =>
    simp only [hm] at hl
    cases hl

theorem hub_go (e : Endpoint) (b : Acquisition) (hub : Hub) :
    (go e b hub).2 = hub ∨ (b.step e hub).hub? = some (go e b hub).2 := by
  unfold go
  cases b.step e hub with
  | wait => exact .inl rfl
  | _ => exact .inr rfl

theorem label_secure (session : Option TlsSession) (h : Handle) :
    (secure session h).label = h.label := by
  cases session <;> rfl

theorem label_act (hl : (c.act a hub).1.label? = some label) :
    label ∈ hub.labels ∨ c.label? = some label ∨ Makes a c hub label := by
  cases c with
  | away => cases a <;> cases hl
  | acquiring e b =>
    cases a with
    | go => exact label_go hl
    | cancel => cases hl
    | _ => exact .inr (.inl hl)
  | holding h =>
    refine .inr (.inl ?_)
    cases a with
    | release =>
      have hsame : (hub.release h).1.label = h.label := by
        cases ht : h.transport <;>
          simp [Hub.release, Pool.release, ht, Handle.label, Handle.detached]
      rw [label?, ← hsame]
      exact hl
    | secure session =>
      rw [label?, ← label_secure session]
      exact hl
    | drop => cases hl
    | _ => exact hl

theorem labels_act (hl : label ∈ (c.act a hub).2.labels) :
    label ∈ hub.labels ∨ c.label? = some label := by
  cases c with
  | away => cases a <;> exact .inl hl
  | acquiring e b =>
    cases a with
    | go =>
      refine .inl ?_
      obtain hsame | hstep := hub_go e b hub
      · rw [← hsame]
        exact hl
      · obtain ⟨x, hx, rfl⟩ := List.mem_map.1 hl
        exact List.mem_map_of_mem (f := fun c => (c.id, c.key))
          ((Acquisition.spares_step hstep).idle x hx)
    | _ => exact .inl hl
  | holding h =>
    cases a with
    | release =>
      simp only [act, Hub.release, Pool.release] at hl
      split at hl
      · exact .inl hl
      · dsimp only [Hub.labels] at hl
        split at hl
        · rw [List.map_cons, List.mem_cons] at hl
          exact hl.symm.imp id fun heq => congrArg some heq.symm
        · exact .inl hl
    | _ => exact .inl hl

theorem proxies_act (a : Act) (c : Client) (hub : Hub) :
    (c.act a hub).2.pool.proxies = hub.pool.proxies := by
  cases c with
  | away => cases a <;> rfl
  | acquiring e b =>
    cases a with
    | go =>
      obtain hsame | hstep := hub_go e b hub
      · exact congrArg (fun hub : Hub => hub.pool.proxies) hsame
      · exact Acquisition.proxies_of_step hstep
    | _ => rfl
  | holding h =>
    cases a with
    | release =>
      simp only [act, Hub.release, Pool.release]
      split
      · rfl
      · dsimp only
        split <;> rfl
    | _ => rfl

theorem asks_act {e : Endpoint} {b : Acquisition} (hc : (c.act a hub).1 = .acquiring e b) :
    (∃ b, c = .acquiring e b) ∨ a = .ask e := by
  cases c with
  | away =>
    cases a <;> cases hc
    exact .inr rfl
  | acquiring e' b' =>
    refine .inl ?_
    cases a with
    | go =>
      simp only [act, go] at hc
      split at hc <;> cases hc <;> exact ⟨_, rfl⟩
    | cancel => cases hc
    | _ =>
      cases hc
      exact ⟨b, rfl⟩
  | holding h => cases a <;> cases hc

/-- The connection that an acquisition is about to get has its key from the endpoint. -/
def Asking (p : Proxies) (c : Client) : Prop :=
  ∀ e b label, c = .acquiring e b → b.label? = some label → label.2 = p.keyFor e

theorem asking_act (hc : c.Asking hub.pool.proxies) : (c.act a hub).1.Asking hub.pool.proxies := by
  intro e b label heq hl
  cases c with
  | away =>
    cases a <;> cases heq
    cases hl
  | acquiring e' b' =>
    cases a with
    | go =>
      have hb' : ∀ label, b'.label? = some label → label.2 = hub.pool.keyFor e' :=
        fun label hl => hc e' b' label rfl hl
      simp only [act, go] at heq
      cases hm : b'.step e' hub with
      | wait =>
        simp only [hm] at heq
        cases heq
        exact hb' label hl
      | next d hub' =>
        simp only [hm] at heq
        cases heq
        exact (Acquisition.source_of_step hm hl rfl).key hb'
      | done h hub' =>
        simp only [hm] at heq
        cases heq
      | fail error hub' =>
        simp only [hm] at heq
        cases heq
    | cancel => cases heq
    | _ => exact hc e b label heq hl
  | holding h => cases a <;> cases heq

end Client

namespace Clientele

variable {proxies : Proxies} {config : PoolConfig} {s : Clientele} {acts : List Act} {a : Act}
  {e e' : Endpoint} {label : Label} {n : Nat}

def labels (s : Clientele) (label : Label) : Prop :=
  label ∈ s.hub.labels ∨ ∃ i, (s.client i).label? = some label

def opens (s : Clientele) (a : Act) (n : Nat) (e : Endpoint) : Prop :=
  ∃ i b, a = .client i .go ∧ s.client i = .acquiring e b ∧ s.hub.pool.nextId = n ∧
    (s.apply a).hub.pool.nextId = n + 1

/-- The connection of this number was made for this endpoint. -/
def opened (s : Clientele) (acts : List Act) (n : Nat) (e : Endpoint) : Prop :=
  ∃ before a, before ++ [a] <+: acts ∧ (s.run before).opens a n e

theorem proxies_apply (s : Clientele) (a : Act) :
    (s.apply a).hub.pool.proxies = s.hub.pool.proxies := by
  cases a with
  | client i act => exact Client.proxies_act act (s.client i) s.hub
  | link n change => rfl
  | wait ms => rfl

theorem labels_apply (hl : (s.apply a).labels label) :
    s.labels label ∨ ∃ e, s.opens a label.1 e ∧ label.2 = s.hub.pool.keyFor e := by
  cases a with
  | link n change => exact .inl hl
  | wait ms => exact .inl hl
  | client i act =>
    obtain hidle | ⟨j, hj⟩ := hl
    · exact .inl ((Client.labels_act hidle).imp_right fun hi => ⟨i, hi⟩)
    · by_cases hji : j = i
      · subst hji
        have hact : ((s.client j).act act s.hub).1.label? = some label := by
          simpa [apply] using hj
        obtain hidle | hown | ⟨e, b, rfl, hc, rfl, hnext⟩ := Client.label_act hact
        · exact .inl (.inl hidle)
        · exact .inl (.inr ⟨j, hown⟩)
        · exact .inr ⟨e, ⟨j, b, rfl, hc, rfl, hnext⟩, rfl⟩
      · exact .inl (.inr ⟨j, by simpa [apply, hji] using hj⟩)

theorem opened.mono {more : List Act} (h : s.opened acts n e) (hm : acts <+: more) :
    s.opened more n e := by
  obtain ⟨before, a, hb, ho⟩ := h
  exact ⟨before, a, hb.trans hm, ho⟩

theorem proxies_run (s : Clientele) (acts : List Act) :
    (s.run acts).hub.pool.proxies = s.hub.pool.proxies := by
  induction acts generalizing s with
  | nil => rfl
  | cons a acts ih => exact (ih (s.apply a)).trans (proxies_apply s a)

theorem opened_of_labels (hl : ((new proxies config).run acts).labels label) :
    ∃ e, (new proxies config).opened acts label.1 e ∧ label.2 = proxies.keyFor e := by
  induction acts using List.reverseRecOn with
  | nil =>
    obtain hidle | ⟨i, hi⟩ := hl
    · cases hidle
    · cases hi
  | append_singleton acts a ih =>
    rw [run_concat] at hl
    -- The label is an old one, or it belongs to a connection that this act makes.
    obtain hold | ⟨e, hopens, hkey⟩ := labels_apply hl
    · obtain ⟨e, ho, hkey⟩ := ih hold
      exact ⟨e, ho.mono (List.prefix_append acts [a]), hkey⟩
    · rw [Pool.keyFor, proxies_run] at hkey
      exact ⟨e, ⟨acts, a, List.prefix_refl _, hopens⟩, hkey⟩

theorem opened_inj_of_le {before before' : List Act} {a' : Act}
    (h : ((new proxies config).run before).opens a n e)
    (h' : ((new proxies config).run before').opens a' n e')
    (hb : before ++ [a] <+: before' ++ [a']) : e = e' := by
  obtain ⟨i, b, rfl, hc, -, hnext⟩ := h
  obtain ⟨i', b', rfl, hc', hn', -⟩ := h'
  obtain heq | hlater := List.prefix_concat_iff.1 hb
  · obtain ⟨rfl, hact⟩ := List.append_inj' heq rfl
    cases hact
    rw [hc] at hc'
    cases hc'
    rfl
  · obtain ⟨more, rfl⟩ := hlater
    rw [← run_concat] at hnext
    have hcustody := custody_run (custody_new proxies config) (before ++ [.client i .go])
    have hmono := (custody_run hcustody.rebase more).numbers
    rw [run, run, ← List.foldl_append, ← run, ← run, hnext, hn'] at hmono
    omega

theorem opened_inj (h : (new proxies config).opened acts n e)
    (h' : (new proxies config).opened acts n e') : e = e' := by
  obtain ⟨before, a, hb, ho⟩ := h
  obtain ⟨before', a', hb', ho'⟩ := h'
  obtain hle | hle := List.prefix_or_prefix_of_prefix hb hb'
  · exact opened_inj_of_le ho ho' hle
  · exact (opened_inj_of_le ho' ho hle).symm

theorem asked_of_acquiring {i : Nat} {b : Acquisition}
    (hc : ((new proxies config).run acts).client i = .acquiring e b) :
    ∃ j, .client j (.ask e) ∈ acts := by
  induction acts using List.reverseRecOn generalizing i b with
  | nil => cases hc
  | append_singleton acts a ih =>
    have hbefore {i : Nat} {b : Acquisition}
        (hc : ((new proxies config).run acts).client i = .acquiring e b) :
        ∃ j, .client j (.ask e) ∈ acts ++ [a] := by
      obtain ⟨j, hj⟩ := ih hc
      exact ⟨j, List.mem_append_left [a] hj⟩
    rw [run_concat] at hc
    cases a with
    | link n change => exact hbefore hc
    | wait ms => exact hbefore hc
    | client j act =>
      by_cases hij : i = j
      · subst hij
        obtain ⟨b, hb⟩ | rfl := Client.asks_act (by simpa [apply] using hc)
        · exact hbefore hb
        · exact ⟨i, by simp⟩
      · exact hbefore (by simpa [apply, hij] using hc)

theorem asked_of_opened (h : (new proxies config).opened acts n e) :
    ∃ j, .client j (.ask e) ∈ acts := by
  obtain ⟨before, a, hb, i, b, -, hc, -, -⟩ := h
  obtain ⟨j, hj⟩ := asked_of_acquiring hc
  exact ⟨j, hb.subset (List.mem_append_left [a] hj)⟩

theorem asking_run (acts : List Act) (i : Nat) :
    (((new proxies config).run acts).client i).Asking proxies := by
  induction acts using List.reverseRecOn generalizing i with
  | nil =>
    intro e b label heq
    cases heq
  | append_singleton acts a ih =>
    rw [run_concat]
    cases a with
    | link n change => exact ih i
    | wait ms => exact ih i
    | client j act =>
      by_cases hij : i = j
      · subst hij
        have hp : ((new proxies config).run acts).hub.pool.proxies = proxies :=
          proxies_run (new proxies config) acts
        have hbefore := ih i
        rw [← hp] at hbefore
        have hact := Client.asking_act (a := act) hbefore
        rw [hp] at hact
        simpa [apply] using hact
      · simpa [apply, hij] using ih i

theorem key_of_done {i : Nat} {b : Acquisition} {h : Handle} {hub : Hub}
    (hc : ((new proxies config).run acts).client i = .acquiring e b)
    (hd : b.step e ((new proxies config).run acts).hub = .done h hub) :
    h.key = proxies.keyFor e := by
  have hp : ((new proxies config).run acts).hub.pool.proxies = proxies :=
    proxies_run (new proxies config) acts
  have hasking (label : Label) (hl : b.label? = some label) : label.2 = proxies.keyFor e :=
    asking_run acts i e b label hc hl
  rw [← hp] at hasking
  have hgiven : h.key = ((new proxies config).run acts).hub.pool.keyFor e :=
    (Acquisition.source_of_step hd rfl rfl).key hasking
  rwa [Pool.keyFor, hp] at hgiven

theorem opened_of_done {i : Nat} {b : Acquisition} {h : Handle} {hub : Hub}
    (hc : ((new proxies config).run acts).client i = .acquiring e b)
    (hd : b.step e ((new proxies config).run acts).hub = .done h hub) :
    ∃ e₀, (new proxies config).opened (acts ++ [.client i .go]) h.id e₀ ∧
      proxies.keyFor e₀ = proxies.keyFor e := by
  have hlabels : ((new proxies config).run (acts ++ [.client i .go])).labels h.label := by
    rw [run_concat]
    exact .inr ⟨i, by simp [apply, hc, Client.act, Client.go, hd, Client.label?]⟩
  obtain ⟨e₀, hopened, hkey⟩ := opened_of_labels hlabels
  exact ⟨e₀, hopened, hkey.symm.trans (key_of_done hc hd)⟩

/-- A connection is given to whoever asks for the host and the port that it was made for, behind the
same proxy. It goes from plain to secure endpoints and back if they have the same proxy. -/
theorem origin_of_done (proxies : Proxies) (config : PoolConfig) (acts : List Act)
    (asks : ∀ i e, .client i (.ask e) ∈ acts → ∃ u : Url, u.Given ∧ Endpoint.ofUrl u = .ok e) :
    let s := (new proxies config).run acts
    (∀ i e b h hub, s.client i = .acquiring e b → b.step e s.hub = .done h hub →
      ∃ e₀, (new proxies config).opened (acts ++ [.client i .go]) h.id e₀ ∧
        (∀ e₁, (new proxies config).opened (acts ++ [.client i .go]) h.id e₁ → e₁ = e₀) ∧
        e₀.host = e.host ∧ e₀.port = e.port ∧
        proxies.forScheme e₀.secure = proxies.forScheme e.secure ∧
        (proxies.plain ≠ proxies.secure → e₀ = e)) ∧
    ∀ e e' h hub, e.host = e'.host → e.port = e'.port →
      proxies.forScheme e.secure = proxies.forScheme e'.secure →
      Acquisition.start.step e s.hub = .done h hub →
      Acquisition.start.step e' s.hub = .done h hub := by
  intro s
  refine ⟨fun i e b h hub hc hd => ?_, fun e e' h hub hhost hport hproxy hd => ?_⟩
  · obtain ⟨e₀, hopened, hkey⟩ := opened_of_done hc hd
    have hash (e : Endpoint) (hask : ∃ j, .client j (.ask e) ∈ acts ++ [.client i .go]) :
        '#' ∉ e.host.toList := by
      obtain ⟨j, hj⟩ := hask
      obtain ⟨u, hu, hofUrl⟩ := asks j e (by simpa using hj)
      exact Endpoint.hash_not_mem_host hu hofUrl
    have hasked : ∃ j, .client j (.ask e) ∈ acts ++ [.client i .go] := by
      obtain ⟨j, hj⟩ := asked_of_acquiring hc
      exact ⟨j, List.mem_append_left _ hj⟩
    obtain ⟨hhost, hport, hproxy⟩ :=
      (Proxies.keyFor_eq_iff (hash e₀ (asked_of_opened hopened)) (hash e hasked)).1 hkey
    refine ⟨e₀, hopened, fun e₁ h₁ => opened_inj h₁ hopened, hhost, hport, hproxy, fun hne => ?_⟩
    have hsecure : e₀.secure = e.secure := Proxies.secure_of_forScheme hne hproxy
    calc
      e₀ = ⟨e₀.host, e₀.port, e₀.secure⟩ := rfl
      _ = e := by rw [hhost, hport, hsecure]
  · have hp : s.hub.pool.proxies = proxies := proxies_run (new proxies config) acts
    have hkey : s.hub.pool.keyFor e = s.hub.pool.keyFor e' := by
      rw [Pool.keyFor, Pool.keyFor, hp]
      exact Proxies.keyFor_congr hhost hport hproxy
    simp only [Acquisition.step, Acquisition.begin, ← hkey] at hd ⊢
    split at hd
    · exact hd
    · cases hd

/-- A secure endpoint, whose connection gets its session, and then a plain one of the same host and
port. -/
def secureThenPlain : List Act :=
  [.client 0 (.ask ⟨"h.example", 8443, true⟩), .client 0 .go,
    .link 0 fun l => { l with dial := .connected }, .client 0 .go,
    .client 0 (.secure (some ⟨"h.example", none⟩)), .client 0 .release,
    .client 1 (.ask ⟨"h.example", 8443, false⟩)]

theorem given_secureThenPlain : ∀ i e, .client i (.ask e) ∈ secureThenPlain →
    ∃ u : Url, u.Given ∧ Endpoint.ofUrl u = .ok e := by
  have given (text : String) (u : Url) (e : Endpoint) (hu : Url.parse text = .ok u)
      (he : Endpoint.ofUrl u = .ok e) : ∃ u : Url, u.Given ∧ Endpoint.ofUrl u = .ok e :=
    ⟨u, .parse hu, he⟩
  intro i e hm
  simp only [secureThenPlain, List.mem_cons, List.not_mem_nil, or_false] at hm
  rcases hm with hm | hm | hm | hm | hm | hm | hm <;> cases hm
  · exact given "https://h.example:8443/"
      ⟨"https", "", none, some "h.example", some 8443, .segments [""], none, none⟩ _
      (by decide +kernel) (by decide +kernel)
  · exact given "http://h.example:8443/"
      ⟨"http", "", none, some "h.example", some 8443, .segments [""], none, none⟩ _
      (by decide +kernel) (by decide +kernel)

theorem client_secureThenPlain : ((new .none .standard).run secureThenPlain).client 1 =
    .acquiring ⟨"h.example", 8443, false⟩ .start := rfl

theorem done_secureThenPlain :
    Acquisition.start.step ⟨"h.example", 8443, false⟩
        ((new .none .standard).run secureThenPlain).hub =
      .done ⟨1, "h.example:8443", some ⟨0, some ⟨"h.example", none⟩⟩, false, true, false⟩
        ⟨⟨.standard, .none, [], [1], 2⟩,
          [⟨"h.example:8443", .connected, [], none, [], none⟩], 0⟩ := by
  decide +kernel

theorem origin_of_done_secureThenPlain :
    (∀ i e, .client i (.ask e) ∈ secureThenPlain →
      ∃ u : Url, u.Given ∧ Endpoint.ofUrl u = .ok e) ∧
    ∃ e₀, (new .none .standard).opened (secureThenPlain ++ [.client 1 .go]) 1 e₀ ∧
      e₀.host = "h.example" ∧ e₀.port = 8443 := by
  refine ⟨given_secureThenPlain, ?_⟩
  obtain ⟨e₀, hopened, -, hhost, hport, -⟩ :=
    (origin_of_done .none .standard secureThenPlain given_secureThenPlain).1 1 _ _ _ _
      client_secureThenPlain done_secureThenPlain
  exact ⟨e₀, hopened, hhost, hport⟩

/-- A connection that was made for a secure endpoint, and has its session, is given out for a plain
one, whose requests then go over it. -/
theorem secure_given_plain :
    let s := (new .none .standard).run secureThenPlain
    (∀ i e, .client i (.ask e) ∈ secureThenPlain →
      ∃ u : Url, u.Given ∧ Endpoint.ofUrl u = .ok e) ∧
    ∃ h hub, s.client 1 = .acquiring ⟨"h.example", 8443, false⟩ .start ∧
      Acquisition.start.step ⟨"h.example", 8443, false⟩ s.hub = .done h hub ∧
      h.reused = true ∧ h.session.isSome = true ∧
      (new .none .standard).opened (secureThenPlain ++ [.client 1 .go]) h.id
        ⟨"h.example", 8443, true⟩ := by
  refine ⟨given_secureThenPlain, _, _, client_secureThenPlain, done_secureThenPlain, rfl, rfl, ?_⟩
  exact ⟨secureThenPlain.take 3, .client 0 .go,
    ⟨secureThenPlain.drop 4 ++ [.client 1 .go], rfl⟩, 0, .dialing 0, rfl, rfl, rfl, rfl⟩

end Clientele

end HttpClient
