import HttpClient.Acquisition
import Mathlib.Logic.Function.Basic
set_option autoImplicit false

/-!
Who has which connection. Every number of a connection, and every link, is with one holder or once
on the idle list, and what is on the way to neither is never given to anyone again.
-/

namespace HttpClient

/-- Numbers below a bound, each with one user at most or once in the store. -/
structure Exclusive {ι : Type} (used : ι → Option Nat) (stored : List Nat) (bound : Nat) :
    Prop where
  apart : ∀ i j n, used i = some n → used j = some n → i = j
  busy : ∀ i n, used i = some n → n ∉ stored
  nodup : stored.Nodup
  below : ∀ i n, used i = some n → n < bound
  storedBelow : ∀ n ∈ stored, n < bound

namespace Exclusive

open Function (update)

variable {ι : Type} {used : ι → Option Nat} {stored kept : List Nat} {bound n : Nat}

theorem thin (h : Exclusive used stored bound) (hk : kept.Sublist stored) :
    Exclusive used kept bound where
  apart := h.apart
  busy i n hi hn := h.busy i n hi (hk.subset hn)
  nodup := h.nodup.sublist hk
  below := h.below
  storedBelow n hn := h.storedBelow n (hk.subset hn)

theorem grow (h : Exclusive used stored bound) : Exclusive used stored (bound + 1) where
  apart := h.apart
  busy := h.busy
  nodup := h.nodup
  below i n hi := Nat.lt_succ_of_lt (h.below i n hi)
  storedBelow n hn := Nat.lt_succ_of_lt (h.storedBelow n hn)

variable [DecidableEq ι]

theorem used_of_update {i j : ι} {o : Option Nat} (h : update used i o j = some n) :
    j = i ∧ o = some n ∨ j ≠ i ∧ used j = some n := by
  rw [Function.update_apply] at h
  split at h
  · next hj => exact .inl ⟨hj, h⟩
  · next hj => exact .inr ⟨hj, h⟩

theorem give (h : Exclusive used stored bound) (i : ι) (hn : n < bound)
    (hfree : ∀ j, j ≠ i → used j ≠ some n) (hs : n ∉ stored) :
    Exclusive (update used i (some n)) stored bound where
  apart j k m hj hk := by
    rcases used_of_update hj with ⟨hji, hm⟩ | ⟨hji, hm⟩ <;>
      rcases used_of_update hk with ⟨hki, hm'⟩ | ⟨hki, hm'⟩
    · rw [hji, hki]
    · cases hm
      exact absurd hm' (hfree k hki)
    · cases hm'
      exact absurd hm (hfree j hji)
    · exact h.apart j k m hm hm'
  busy j m hj := by
    rcases used_of_update hj with ⟨rfl, hm⟩ | ⟨-, hj⟩
    · cases hm
      exact hs
    · exact h.busy j m hj
  nodup := h.nodup
  below j m hj := by
    rcases used_of_update hj with ⟨rfl, hm⟩ | ⟨-, hj⟩
    · cases hm
      exact hn
    · exact h.below j m hj
  storedBelow := h.storedBelow

theorem vacate (h : Exclusive used stored bound) (i : ι) :
    Exclusive (update used i none) stored bound where
  apart j k m hj hk := by
    rcases used_of_update hj with ⟨-, hm⟩ | ⟨-, hj⟩
    · cases hm
    rcases used_of_update hk with ⟨-, hm⟩ | ⟨-, hk⟩
    · cases hm
    exact h.apart j k m hj hk
  busy j m hj := by
    rcases used_of_update hj with ⟨-, hm⟩ | ⟨-, hj⟩
    · cases hm
    · exact h.busy j m hj
  nodup := h.nodup
  below j m hj := by
    rcases used_of_update hj with ⟨-, hm⟩ | ⟨-, hj⟩
    · cases hm
    · exact h.below j m hj
  storedBelow := h.storedBelow

theorem fresh (h : Exclusive used stored bound) (i : ι) :
    Exclusive (update used i (some bound)) stored (bound + 1) := by
  refine h.grow.give i (Nat.lt_succ_self bound) (fun j _ hj => ?_) (fun hs => ?_)
  · exact Nat.lt_irrefl bound (h.below j bound hj)
  · exact Nat.lt_irrefl bound (h.storedBelow bound hs)

theorem store {i : ι} (h : Exclusive used stored bound) (hi : used i = some n) :
    Exclusive (update used i none) (n :: stored) bound where
  apart := (h.vacate i).apart
  busy j m hj := by
    rcases used_of_update hj with ⟨-, hm⟩ | ⟨hji, hj⟩
    · cases hm
    rw [List.mem_cons, not_or]
    refine ⟨?_, h.busy j m hj⟩
    rintro rfl
    exact hji (h.apart j i m hj hi)
  nodup := List.nodup_cons.2 ⟨h.busy i n hi, h.nodup⟩
  below := (h.vacate i).below
  storedBelow m hm := by
    rcases List.mem_cons.1 hm with rfl | hm
    · exact h.below i m hi
    · exact h.storedBelow m hm

theorem take (h : Exclusive used stored bound) (i : ι) (hn : n ∈ stored)
    (hk : kept.Sublist stored) (hout : n ∉ kept) : Exclusive (update used i (some n)) kept bound :=
  (h.thin hk).give i (h.storedBelow n hn) (fun j _ hj => h.busy j n hj hn) hout

end Exclusive

inductive Tenure where
  | nothing
  | number (id : Nat)
  | link (n : Nat)
  | connection (h : Handle)

namespace Tenure

def id? : Tenure → Option Nat
  | .nothing | .link _ => none
  | .number id => some id
  | .connection h => h.transport.map fun _ => h.id

def link? : Tenure → Option Nat
  | .nothing | .number _ => none
  | .link n => some n
  | .connection h => h.transport.map (·.link)

theorem id?_of_transport {h : Handle} (ht : h.transport = none) : (connection h).id? = none := by
  simp [id?, ht]

theorem link?_of_transport {h : Handle} (ht : h.transport = none) :
    (connection h).link? = none := by
  simp [link?, ht]

end Tenure

/-- Each holder has a connection and a link of its own, and so has each idle connection; of those
there are not too many. The pool has come out of `origin`. -/
structure Custody {ι : Type} (origin : Pool) (hub : Hub) (tenure : ι → Tenure) : Prop where
  ids : Exclusive (Tenure.id? ∘ tenure) (hub.pool.idle.map (·.id)) hub.pool.nextId
  links : Exclusive (Tenure.link? ∘ tenure) (hub.pool.idle.map (·.transport.link)) hub.links.length
  room : ∀ key, hub.pool.idleCount key ≤ origin.config.maxIdlePerKey
  config : hub.pool.config = origin.config
  numbers : origin.nextId ≤ hub.pool.nextId

namespace Pool

theorem takeFrom_not_mem {α : Type} {key : String} {fit : IdleConnection → Bool}
    {cs kept : List IdleConnection} {c : IdleConnection} {f : IdleConnection → α}
    (hn : (cs.map f).Nodup) (h : takeFrom key fit cs = (some c, kept)) : f c ∉ kept.map f := by
  induction cs generalizing kept with
  | nil => simp [takeFrom] at h
  | cons d cs ih =>
    rw [List.map_cons, List.nodup_cons] at hn
    simp only [takeFrom] at h
    split at h
    · obtain ⟨hc, rfl⟩ := Prod.mk.inj h
      have hr : takeFrom key fit cs = (some c, (takeFrom key fit cs).2) := Prod.ext hc rfl
      rw [List.map_cons, List.mem_cons, not_or]
      refine ⟨fun he => hn.1 ?_, ih hn.2 hr⟩
      rw [← he]
      exact List.mem_map_of_mem (takeFrom_some hr).1
    · split at h
      · cases h
        exact hn.1
      · exact ih hn.2 h

end Pool

theorem Hub.transport_release (hub : Hub) (x : Handle) : (hub.release x).1.transport = none := by
  unfold Hub.release Pool.release
  cases hx : x.transport with
  | none => exact hx
  | some t => rfl

theorem Hub.links_release (hub : Hub) (x : Handle) : (hub.release x).2.links = hub.links := rfl

namespace Custody

open Function (update)

variable {ι : Type} {origin : Pool} {hub hub' : Hub} {tenure : ι → Tenure} {i : ι}

theorem new (proxies : Proxies) (config : PoolConfig) :
    Custody (.new proxies config) (.new proxies config) fun _ : ι => .nothing where
  ids := ⟨by simp [Tenure.id?], by simp [Tenure.id?], .nil, by simp [Tenure.id?],
    by simp [Hub.new, Pool.new]⟩
  links := ⟨by simp [Tenure.link?], by simp [Tenure.link?], .nil, by simp [Tenure.link?],
    by simp [Hub.new, Pool.new]⟩
  room key := by simp [Pool.idleCount, Hub.new, Pool.new]
  config := rfl
  numbers := Nat.le_refl _

theorem rebase (h : Custody origin hub tenure) : Custody hub.pool hub tenure where
  ids := h.ids
  links := h.links
  room key := by
    rw [h.config]
    exact h.room key
  config := rfl
  numbers := Nat.le_refl _

theorem of_eq (h : Custody origin hub tenure) (hidle : hub'.pool.idle = hub.pool.idle)
    (hnext : hub'.pool.nextId = hub.pool.nextId) (hconfig : hub'.pool.config = hub.pool.config)
    (hlinks : hub'.links.length = hub.links.length) : Custody origin hub' tenure where
  ids := by
    rw [hidle, hnext]
    exact h.ids
  links := by
    rw [hidle, hlinks]
    exact h.links
  room key := by
    rw [Pool.idleCount, hidle]
    exact h.room key
  config := hconfig.trans h.config
  numbers := hnext ▸ h.numbers

theorem setLink (h : Custody origin hub tenure) (n : Nat) (l : Link) :
    Custody origin (hub.setLink n l) tenure :=
  h.of_eq rfl rfl rfl (by simp [Hub.setLink])

theorem enroll (h : Custody origin hub tenure) (x : Handle) :
    Custody origin (hub.enroll x) tenure :=
  h.of_eq rfl rfl rfl rfl

theorem idleCount_le_of_sublist (h : Custody origin hub tenure) {idle : List IdleConnection}
    (hs : idle.Sublist hub.pool.idle) (key : String) :
    (idle.countP fun c => c.key == key) ≤ origin.config.maxIdlePerKey :=
  Nat.le_trans hs.countP_le (h.room key)

theorem takeIdle_none {key : String} (h : Custody origin hub tenure)
    (ht : hub.takeIdle key = (none, hub')) : Custody origin hub' tenure := by
  unfold Hub.takeIdle Pool.takeIdle at ht
  have hs := Pool.takeFrom_sublist key
    (fun c => !hub.pool.isExpired hub.now c && hub.usable c.transport.link) hub.pool.idle
  dsimp only at ht
  split at ht
  · next kept hk =>
    cases ht
    rw [hk] at hs
    exact ⟨h.ids.thin (hs.map _), h.links.thin (hs.map _), h.idleCount_le_of_sublist hs, h.config,
      h.numbers⟩
  · cases ht

variable [DecidableEq ι]

theorem rename (h : Custody origin hub tenure) {t : Tenure} (hid : t.id? = (tenure i).id?)
    (hlink : t.link? = (tenure i).link?) : Custody origin hub (update tenure i t) where
  ids := by
    have hself : update (Tenure.id? ∘ tenure) i (tenure i).id? = Tenure.id? ∘ tenure :=
      Function.update_eq_self i _
    rw [Function.comp_update, hid, hself]
    exact h.ids
  links := by
    have hself : update (Tenure.link? ∘ tenure) i (tenure i).link? = Tenure.link? ∘ tenure :=
      Function.update_eq_self i _
    rw [Function.comp_update, hlink, hself]
    exact h.links
  room := h.room
  config := h.config
  numbers := h.numbers

theorem keep (h : Custody origin hub tenure) {t : Tenure} (hi : tenure i = t) :
    Custody origin hub (update tenure i t) :=
  h.rename (by rw [hi]) (by rw [hi])

theorem vacate (h : Custody origin hub tenure) (i : ι) {t : Tenure} (hid : t.id? = none)
    (hlink : t.link? = none) : Custody origin hub (update tenure i t) where
  ids := by
    rw [Function.comp_update, hid]
    exact h.ids.vacate i
  links := by
    rw [Function.comp_update, hlink]
    exact h.links.vacate i
  room := h.room
  config := h.config
  numbers := h.numbers

theorem takeIdle_some {key : String} {x : Handle} (h : Custody origin hub tenure)
    (ht : hub.takeIdle key = (some x, hub')) (i : ι) :
    Custody origin hub' (update tenure i (.connection x)) := by
  unfold Hub.takeIdle Pool.takeIdle at ht
  have hs := Pool.takeFrom_sublist key
    (fun c => !hub.pool.isExpired hub.now c && hub.usable c.transport.link) hub.pool.idle
  dsimp only at ht
  split at ht
  · cases ht
  · next c kept hk =>
    obtain ⟨hx, rfl⟩ := Prod.mk.inj ht
    cases hx
    rw [hk] at hs
    have hc : c ∈ hub.pool.idle := (Pool.takeFrom_some hk).1
    refine ⟨?_, ?_, h.idleCount_le_of_sublist hs, h.config, h.numbers⟩
    · rw [Function.comp_update]
      exact h.ids.take i (List.mem_map_of_mem hc) (hs.map _) (Pool.takeFrom_not_mem h.ids.nodup hk)
    · rw [Function.comp_update]
      exact h.links.take i (List.mem_map_of_mem (f := fun c => c.transport.link) hc) (hs.map _)
        (Pool.takeFrom_not_mem h.links.nodup hk)

theorem dial (h : Custody origin hub tenure) (i : ι) (target : String) :
    Custody origin (hub.dial target) (update tenure i (.link hub.links.length)) where
  ids := by
    rw [Function.comp_update]
    exact h.ids.vacate i
  links := by
    rw [Function.comp_update]
    simpa [Hub.dial, Tenure.link?] using h.links.fresh i
  room := h.room
  config := h.config
  numbers := h.numbers

theorem register {key : String} {n : Nat} {x : Handle} (h : Custody origin hub tenure)
    (hi : (tenure i).link? = some n) (hr : hub.register key n = (x, hub')) :
    Custody origin hub' (update tenure i (.connection x)) := by
  unfold Hub.register Pool.register at hr
  cases hr
  refine ⟨?_, ?_, h.room, h.config, Nat.le_succ_of_le h.numbers⟩
  · rw [Function.comp_update]
    exact h.ids.fresh i
  · have hself : update (Tenure.link? ∘ tenure) i (tenure i).link? = Tenure.link? ∘ tenure :=
      Function.update_eq_self i _
    rw [Function.comp_update]
    rw [hi] at hself
    simpa [Tenure.link?, hself] using h.links

theorem discard (h : Custody origin hub tenure) (x : Handle) (i : ι) {t : Tenure}
    (hid : t.id? = none) (hlink : t.link? = none) :
    Custody origin (hub.discard x).2 (update tenure i t) :=
  (h.vacate i hid hlink).of_eq rfl rfl rfl rfl

theorem release {x : Handle} (h : Custody origin hub tenure) (hi : tenure i = .connection x)
    {t : Tenure} (hid : t.id? = none) (hlink : t.link? = none) :
    Custody origin (hub.release x).2 (update tenure i t) := by
  have hout : Custody origin hub (update tenure i t) := h.vacate i hid hlink
  unfold Hub.release Pool.release
  cases ht : x.transport with
  | none => exact hout.of_eq rfl rfl rfl rfl
  | some wire =>
    dsimp only
    split
    · next hkept =>
      have hnum : (Tenure.id? ∘ tenure) i = some x.id := by simp [hi, Tenure.id?, ht]
      have hwire : (Tenure.link? ∘ tenure) i = some wire.link := by simp [hi, Tenure.link?, ht]
      refine ⟨?_, ?_, fun key => ?_, h.config, h.numbers⟩
      · rw [Function.comp_update, hid]
        exact h.ids.store hnum
      · rw [Function.comp_update, hlink]
        exact h.links.store hwire
      · have hroom := h.room key
        have hlt : hub.pool.idleCount x.key < hub.pool.config.maxIdlePerKey :=
          of_decide_eq_true (Bool.and_eq_true_iff.1 hkept).2
        rw [h.config] at hlt
        simp only [Pool.idleCount, Pool.dismiss, List.countP_cons] at hroom hlt ⊢
        split
        · next hkey =>
          rw [← eq_of_beq hkey]
          omega
        · omega
    · exact hout.of_eq rfl rfl rfl rfl

end Custody

namespace Acquisition

def tenure : Acquisition → Tenure
  | .start => .nothing
  | .dialing n => .link n
  | .tunnelling h _ => .connection h

def Move.tenure : Move → Tenure
  | .wait => .nothing
  | .next a _ => a.tenure
  | .done h _ => .connection h
  | .fail .. => .nothing

def Move.hub? : Move → Option Hub
  | .wait => none
  | .next _ hub | .done _ hub | .fail _ hub => some hub

end Acquisition

theorem Hub.linkOf_eq_some_iff {hub : Hub} {h : Handle} {n : Nat} {l : Link} :
    hub.linkOf h = some (n, l) ↔ h.transport.map (·.link) = some n ∧ hub.links[n]? = some l := by
  unfold linkOf
  cases ht : h.transport with
  | none => simp
  | some t =>
    cases hl : hub.links[t.link]? with
    | none =>
      simp only [Option.bind_eq_bind, Option.bind_some, hl, Option.map_some, Option.some.injEq]
      constructor
      · intro h
        cases h
      · rintro ⟨rfl, h⟩
        rw [hl] at h
        cases h
    | some m =>
      simp only [Option.bind_eq_bind, Option.bind_some, hl, Option.pure_def, Option.map_some,
        Option.some.injEq, Prod.mk.injEq]
      constructor
      · rintro ⟨rfl, rfl⟩
        exact ⟨rfl, hl⟩
      · rintro ⟨rfl, h⟩
        rw [hl] at h
        exact ⟨rfl, Option.some.inj h⟩

theorem Hub.quiet_of_takeIdle {hub hub' : Hub} {key : String} {x : Handle}
    (h : hub.takeIdle key = (some x, hub')) :
    ∃ n l, hub.linkOf x = some (n, l) ∧ hub'.links = hub.links ∧ l.isQuiet = true := by
  unfold Hub.takeIdle Pool.takeIdle at h
  dsimp only at h
  split at h
  · cases h
  · next c kept hk =>
    cases h
    have hfit := (Pool.takeFrom_some hk).2.2
    simp only [Bool.and_eq_true, usable, Option.any_eq_true] at hfit
    obtain ⟨-, l, hl, hq⟩ := hfit
    exact ⟨c.transport.link, l, Hub.linkOf_eq_some_iff.2 ⟨rfl, hl⟩, rfl, hq⟩

namespace Acquisition

def Unused (a : Acquisition) : Prop := ∀ x parser, a = .tunnelling x parser → x.reused = false

theorem of_connect {e : Endpoint} {n : Nat} {l : Link} {hub hub' : Hub} {x : Handle}
    (h : connect e n l hub = .done x hub') :
    x.reused = false ∧ x.transport = some ⟨n, none⟩ ∧ hub'.links = hub.links := by
  simp only [connect] at h
  repeat' split at h
  all_goals cases h
  exact ⟨rfl, rfl, rfl⟩

theorem unused_of_next {e : Endpoint} {a b : Acquisition} {hub hub' : Hub} (ha : a.Unused)
    (h : a.step e hub = .next b hub') : b.Unused := by
  intro x parser hb
  subst hb
  cases a with
  | start =>
    simp only [step, begin] at h
    split at h <;> cases h
  | dialing n =>
    simp only [step, connect] at h
    repeat' split at h
    all_goals cases h
    rfl
  | tunnelling y parser' =>
    simp only [step] at h
    repeat' split at h
    all_goals cases h
    exact ha x parser' rfl

theorem linkOf_of_done {e : Endpoint} {a : Acquisition} {hub hub' : Hub} {x : Handle}
    (h : a.step e hub = .done x hub') : ∃ n l, hub'.linkOf x = some (n, l) := by
  cases a with
  | start =>
    simp only [step, begin] at h
    split at h <;> cases h
    next ht =>
    obtain ⟨n, l, hl, hlinks, -⟩ := Hub.quiet_of_takeIdle ht
    obtain ⟨hwire, hn⟩ := Hub.linkOf_eq_some_iff.1 hl
    exact ⟨n, l, Hub.linkOf_eq_some_iff.2 ⟨hwire, hlinks ▸ hn⟩⟩
  | dialing n =>
    simp only [step] at h
    cases hl : hub.links[n]? with
    | none =>
      simp only [hl] at h
      cases h
    | some l =>
      simp only [hl] at h
      split at h
      · cases h
      · cases h
      · obtain ⟨-, ht, hlinks⟩ := of_connect h
        exact ⟨n, l, Hub.linkOf_eq_some_iff.2 ⟨by rw [ht]; rfl, hlinks ▸ hl⟩⟩
  | tunnelling y parser =>
    simp only [step] at h
    cases hl : hub.linkOf y with
    | none =>
      simp only [hl] at h
      cases h
    | some found =>
      obtain ⟨n, l⟩ := found
      obtain ⟨hwire, hn⟩ := Hub.linkOf_eq_some_iff.1 hl
      have hlt : n < hub.links.length := (List.getElem?_eq_some_iff.1 hn).1
      simp only [hl] at h
      split at h <;> cases h
      next m hm => exact ⟨n, m, Hub.linkOf_eq_some_iff.2 ⟨hwire, List.getElem?_set_self hlt⟩⟩

theorem transport_of_done {e : Endpoint} {a : Acquisition} {hub hub' : Hub} {x : Handle}
    (h : a.step e hub = .done x hub') : x.transport.isSome = true := by
  obtain ⟨n, l, hl⟩ := linkOf_of_done h
  rw [← Option.isSome_map, (Hub.linkOf_eq_some_iff.1 hl).1]
  rfl

theorem quiet_of_done {e : Endpoint} {a : Acquisition} {hub hub' : Hub} {x : Handle}
    (ha : a.Unused) (h : a.step e hub = .done x hub') (hr : x.reused = true) :
    ∃ n l, hub.linkOf x = some (n, l) ∧ hub'.links = hub.links ∧ l.isQuiet = true := by
  cases a with
  | start =>
    simp only [step, begin] at h
    split at h <;> cases h
    next ht => exact Hub.quiet_of_takeIdle ht
  | dialing n =>
    simp only [step] at h
    repeat' split at h
    · cases h
    · cases h
    · cases h
    · rw [(of_connect h).1] at hr
      cases hr
  | tunnelling y parser =>
    simp only [step] at h
    repeat' split at h
    all_goals cases h
    rw [show y.reused = false from ha y parser rfl] at hr
    cases hr

end Acquisition

section Steps

variable {ι : Type} [DecidableEq ι] {origin : Pool} {hub hub' : Hub} {tenure : ι → Tenure} {i : ι}
  {e : Endpoint}

theorem Custody.connect {n : Nat} {l : Link} (h : Custody origin hub tenure)
    (hi : tenure i = .link n) (hs : (Acquisition.connect e n l hub).hub? = some hub') :
    Custody origin hub' (Function.update tenure i (Acquisition.connect e n l hub).tenure) := by
  unfold Acquisition.connect at hs ⊢
  rcases hr : hub.register (hub.pool.keyFor e) n with ⟨x, hub₁⟩
  have hreg := h.register (i := i) (by rw [hi]; rfl) hr
  simp only [hr] at hs ⊢
  by_cases hd : (hub₁.pool.proxies.forScheme e.secure).isNone = true
  · simp only [hd, ite_true] at hs ⊢
    cases hs
    exact hreg.enroll x
  · simp only [hd, ite_false, Bool.false_eq_true] at hs ⊢
    cases ha : Tunnel.ask e.authority l with
    | error error =>
      simp only [ha] at hs ⊢
      cases hs
      have := hreg.vacate i (t := .nothing) rfl rfl
      rwa [Function.update_idem] at this
    | ok l =>
      simp only [ha] at hs ⊢
      cases hs
      exact hreg.setLink n l

/-- Whatever step an acquisition takes, what it holds stays its own. -/
theorem Custody.acquire {a : Acquisition} (h : Custody origin hub tenure) (hi : tenure i = a.tenure)
    (hs : (a.step e hub).hub? = some hub') :
    Custody origin hub' (Function.update tenure i (a.step e hub).tenure) := by
  have hvacate : Custody origin hub (Function.update tenure i .nothing) := h.vacate i rfl rfl
  cases a with
  | start =>
    simp only [Acquisition.step, Acquisition.begin] at hs ⊢
    cases ht : hub.takeIdle (hub.pool.keyFor e) with
    | mk found hub₁ =>
      simp only [ht] at hs ⊢
      cases found with
      | none =>
        cases hs
        exact (h.takeIdle_none ht).dial i _
      | some x =>
        cases hs
        exact h.takeIdle_some ht i
  | dialing n =>
    simp only [Acquisition.step] at hs ⊢
    cases hl : hub.links[n]? with
    | none => simp [hl, Acquisition.Move.hub?] at hs
    | some l =>
      cases hd : l.dial with
      | pending => simp [hl, hd, Acquisition.Move.hub?] at hs
      | refused failure =>
        simp only [hl, hd] at hs ⊢
        cases hs
        exact hvacate
      | connected =>
        simp only [hl, hd] at hs ⊢
        exact h.connect hi hs
  | tunnelling x parser =>
    simp only [Acquisition.step] at hs ⊢
    cases hl : hub.linkOf x with
    | none =>
      simp only [hl] at hs ⊢
      cases hs
      exact hvacate
    | some found =>
      obtain ⟨n, l⟩ := found
      simp only [hl] at hs ⊢
      cases hm : Tunnel.step parser l with
      | wait => simp [hm, Acquisition.Move.hub?] at hs
      | next parser l =>
        simp only [hm] at hs ⊢
        cases hs
        exact (h.rename (by rw [hi]; rfl) (by rw [hi]; rfl)).setLink n l
      | fail error l =>
        simp only [hm] at hs ⊢
        cases hs
        exact hvacate.setLink n l
      | done l =>
        simp only [hm] at hs ⊢
        cases hs
        exact ((h.rename (by rw [hi]; rfl) (by rw [hi]; rfl)).setLink n l).enroll _

theorem Hub.reused_of_takeIdle {key : String} {x : Handle}
    (h : hub.takeIdle key = (some x, hub')) : x.reused = true := by
  unfold Hub.takeIdle Pool.takeIdle at h
  dsimp only at h
  split at h <;> cases h
  rfl

omit [DecidableEq ι] in
theorem Custody.reused_of_idle {a : Acquisition} {x : Handle} {c : IdleConnection}
    (h : Custody origin hub tenure) (hi : tenure i = a.tenure) (hs : a.step e hub = .done x hub')
    (hc : c ∈ hub.pool.idle) (hx : c.id = x.id) : x.reused = true := by
  have hstored : x.id ∈ hub.pool.idle.map (·.id) := hx ▸ List.mem_map_of_mem hc
  cases a with
  | start =>
    simp only [Acquisition.step, Acquisition.begin] at hs
    split at hs <;> cases hs
    next ht => exact Hub.reused_of_takeIdle ht
  | dialing n =>
    have hlt := h.ids.storedBelow _ hstored
    have hnew : x.id = hub.pool.nextId := by
      simp only [Acquisition.step, Acquisition.connect] at hs
      repeat' split at hs
      all_goals cases hs
      rfl
    omega
  | tunnelling y parser =>
    have hid : x.id = y.id ∧ y.transport.isSome = true := by
      simp only [Acquisition.step] at hs
      cases hl : hub.linkOf y with
      | none =>
        simp only [hl] at hs
        cases hs
      | some found =>
        obtain ⟨n, l⟩ := found
        have hwire := (Hub.linkOf_eq_some_iff.1 hl).1
        simp only [hl] at hs
        split at hs <;> cases hs
        refine ⟨rfl, ?_⟩
        rw [← Option.isSome_map, hwire]
        rfl
    obtain ⟨t, ht⟩ := Option.isSome_iff_exists.1 hid.2
    have hused : (Tenure.id? ∘ tenure) i = some x.id := by
      simp [hi, Acquisition.tenure, Tenure.id?, ht, hid.1]
    exact absurd hstored (h.ids.busy i _ hused)

end Steps

/-- No link but `own` was used, and no connection has become idle. -/
structure Hub.Spares (own : Option Nat) (hub hub' : Hub) : Prop where
  links : ∀ n, n < hub.links.length → own ≠ some n → hub'.links[n]? = hub.links[n]?
  idle : ∀ c ∈ hub'.pool.idle, c ∈ hub.pool.idle

namespace Hub.Spares

variable {hub hub' : Hub} {own : Option Nat}

theorem of_eq (hl : hub'.links = hub.links) (hi : hub'.pool.idle = hub.pool.idle) :
    hub.Spares own hub' where
  links n _ _ := by rw [hl]
  idle c hc := hi ▸ hc

theorem setLink (n : Nat) (l : Link) : hub.Spares (some n) (hub.setLink n l) where
  links m _ hm := by
    have hne : n ≠ m := fun he => hm (congrArg some he)
    simp [Hub.setLink, List.getElem?_set_ne hne]
  idle _ hc := hc

theorem dial {target : String} : hub.Spares own (hub.dial target) where
  links n hn _ := by simp [Hub.dial, List.getElem?_append_left hn]
  idle _ hc := hc

theorem takeIdle {key : String} : hub.Spares own (hub.takeIdle key).2 where
  links n _ _ := by
    unfold Hub.takeIdle
    rfl
  idle c hc := by
    unfold Hub.takeIdle Pool.takeIdle at hc
    refine (Pool.takeFrom_sublist key (fun c => !hub.pool.isExpired hub.now c &&
      hub.usable c.transport.link) hub.pool.idle).subset ?_
    dsimp only at hc
    split at hc
    · next hk =>
      rw [hk]
      exact hc
    · next hk =>
      rw [hk]
      exact hc

theorem trans {mid : Hub} (h : hub.Spares own mid) (h' : mid.Spares own hub') :
    hub.Spares own hub' where
  links n hn ho := by
    have hmid := h.links n hn ho
    have hlt : n < mid.links.length := by
      rw [List.getElem?_eq_getElem hn] at hmid
      exact (List.getElem?_eq_some_iff.1 hmid).1
    rw [h'.links n hlt ho, hmid]
  idle c hc := h.idle c (h'.idle c hc)

end Hub.Spares

theorem Acquisition.spares_connect {e : Endpoint} {n : Nat} {l : Link} {hub hub' : Hub}
    (h : (connect e n l hub).hub? = some hub') : hub.Spares (some n) hub' := by
  unfold connect at h
  rcases hr : hub.register (hub.pool.keyFor e) n with ⟨x, hub₁⟩
  have hreg : hub.Spares (some n) hub₁ := by
    unfold Hub.register Pool.register at hr
    cases hr
    exact .of_eq rfl rfl
  simp only [hr] at h
  split at h
  · cases h
    exact hreg.trans (.of_eq rfl rfl)
  · split at h
    · cases h
      exact hreg
    · cases h
      exact hreg.trans (.setLink n _)

theorem Acquisition.spares_step {e : Endpoint} {a : Acquisition} {hub hub' : Hub}
    (h : (a.step e hub).hub? = some hub') : hub.Spares a.tenure.link? hub' := by
  cases a with
  | start =>
    simp only [step, begin] at h
    have htake : hub.Spares none (hub.takeIdle (hub.pool.keyFor e)).2 := .takeIdle
    rcases ht : hub.takeIdle (hub.pool.keyFor e) with ⟨_ | x, hub₁⟩
    · simp only [ht] at h htake
      cases h
      exact htake.trans .dial
    · simp only [ht] at h htake
      cases h
      exact htake
  | dialing n =>
    simp only [step] at h
    split at h
    · cases h
    · split at h
      · cases h
      · cases h
        exact .of_eq rfl rfl
      · exact spares_connect h
  | tunnelling x parser =>
    simp only [step] at h
    cases hl : hub.linkOf x with
    | none =>
      simp only [hl] at h
      cases h
      exact .of_eq rfl rfl
    | some found =>
      obtain ⟨n, l⟩ := found
      have hown : (tunnelling x parser).tenure.link? = some n := (Hub.linkOf_eq_some_iff.1 hl).1
      rw [hown]
      simp only [hl] at h
      split at h <;> cases h
      · exact .setLink n _
      · exact .setLink n _
      · exact Hub.Spares.trans (.setLink n _) (.of_eq rfl rfl)

end HttpClient
