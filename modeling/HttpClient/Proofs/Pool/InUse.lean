import HttpClient.Proofs.Pool.Clients
import Mathlib.Data.List.Induction
set_option autoImplicit false

/-!
Which connections are in use. The pool strikes off the number of every handle that is discarded,
also of one that has given its connection back. The connection may have been lent again under the
same number, and then the pool counts it no longer.
-/

namespace HttpClient

theorem Hub.inUse_of_takeIdle_none {hub hub' : Hub} {key : String}
    (h : hub.takeIdle key = (none, hub')) : hub'.pool.inUse = hub.pool.inUse := by
  unfold Hub.takeIdle Pool.takeIdle at h
  dsimp only at h
  split at h <;> cases h
  rfl

theorem Hub.mem_inUse_of_takeIdle {hub hub' : Hub} {key : String} {h : Handle} {n : Nat}
    (ht : hub.takeIdle key = (some h, hub')) :
    n ∈ hub'.pool.inUse ↔ n = h.id ∨ n ∈ hub.pool.inUse := by
  unfold Hub.takeIdle Pool.takeIdle at ht
  dsimp only at ht
  split at ht <;> cases ht
  exact Pool.mem_inUse_enroll

theorem Hub.mem_inUse_discard {hub : Hub} {h : Handle} {n : Nat} :
    n ∈ (hub.discard h).2.pool.inUse ↔ n ∈ hub.pool.inUse ∧ n ≠ h.id :=
  Pool.mem_inUse_dismiss

theorem Hub.mem_inUse_release {hub : Hub} {h : Handle} {n : Nat} (ht : h.transport.isSome = true) :
    n ∈ (hub.release h).2.pool.inUse ↔ n ∈ hub.pool.inUse ∧ n ≠ h.id := by
  obtain ⟨t, ht⟩ := Option.isSome_iff_exists.1 ht
  simp only [Hub.release, Pool.release, ht]
  split <;> exact Pool.mem_inUse_dismiss

namespace Acquisition

variable {e : Endpoint} {a b : Acquisition} {hub hub' : Hub}

theorem inUse_of_connect {n : Nat} {l : Link} (hs : (connect e n l hub).hub? = some hub')
    (none : ∀ h, connect e n l hub ≠ .done h hub') : hub'.pool.inUse = hub.pool.inUse := by
  unfold connect at hs none
  dsimp only at hs none
  split at hs
  · next direct =>
    cases hs
    exact absurd (if_pos direct) (none _)
  · split at hs <;> (cases hs; rfl)

theorem inUse_of_step (hs : (a.step e hub).hub? = some hub')
    (none : ∀ h, a.step e hub ≠ .done h hub') : hub'.pool.inUse = hub.pool.inUse := by
  cases a with
  | start =>
    simp only [step, begin] at hs none
    split at hs
    · next h hub₁ ht =>
      cases hs
      exact absurd (by rw [ht]) (none h)
    · next hub₁ ht =>
      cases hs
      have untouched : hub₁.pool.inUse = hub.pool.inUse := Hub.inUse_of_takeIdle_none ht
      exact untouched
  | dialing n =>
    simp only [step] at hs none
    split at hs
    · cases hs
    · next l found =>
      simp only [found] at none
      split at hs
      · cases hs
      · cases hs
        rfl
      · next dialed =>
        simp only [dialed] at none
        exact inUse_of_connect hs none
  | tunnelling c parser =>
    simp only [step] at hs none
    split at hs
    · cases hs
      rfl
    · next n l found =>
      simp only [found] at none
      split at hs
      · cases hs
      · cases hs
        rfl
      · cases hs
        rfl
      · next moved =>
        cases hs
        exact absurd (by rw [moved]) (none _)

theorem mem_inUse_of_done {h : Handle} {n : Nat} (hs : a.step e hub = .done h hub') :
    n ∈ hub'.pool.inUse ↔ n = h.id ∨ n ∈ hub.pool.inUse := by
  cases a with
  | start =>
    simp only [step, begin] at hs
    split at hs <;> cases hs
    next ht => exact Hub.mem_inUse_of_takeIdle ht
  | dialing m =>
    simp only [step, connect] at hs
    repeat' split at hs
    all_goals cases hs
    exact Pool.mem_inUse_enroll
  | tunnelling c parser =>
    simp only [step] at hs
    repeat' split at hs
    all_goals cases hs
    exact Pool.mem_inUse_enroll

end Acquisition

namespace Client

def lent? : Client → Option Nat
  | .holding h => h.transport.map fun _ => h.id
  | _ => none

/-- What costs a client its connection behind the back of the pool is left out. -/
def Act.Told : Act → Prop
  | .secure none | .drop => False
  | _ => True

variable {a : Act} {c c' : Client} {hub hub' : Hub} {n : Nat}

theorem id?_of_lent? (h : c.lent? = some n) : c.tenure.id? = some n := by
  cases c with
  | holding x => exact h
  | _ => cases h

theorem lent?_of_detached {x : Handle} (h : x.isDetached = true) : (holding x).lent? = none := by
  rw [lent?, Option.isNone_iff_eq_none.1 h, Option.map_none]

/-- What an act of a client means to the pool: a connection is lent, or is returned, or is struck
off once more by someone who has returned it. -/
inductive Entry (a : Act) (c : Client) (hub : Hub) (c' : Client) (hub' : Hub) : Prop where
  | none (lent : c'.lent? = c.lent?) (inUse : hub'.pool.inUse = hub.pool.inUse)
  | lends (n : Nat) (before : c.lent? = .none) (after : c'.lent? = some n)
      (inUse : ∀ k, k ∈ hub'.pool.inUse ↔ k = n ∨ k ∈ hub.pool.inUse)
  | returns (n : Nat) (before : c.lent? = some n) (after : c'.lent? = .none)
      (inUse : ∀ k, k ∈ hub'.pool.inUse ↔ k ∈ hub.pool.inUse ∧ k ≠ n)
  | strikes (h : Handle) (act : a = .discard) (holding : c = .holding h)
      (detached : h.isDetached = true) (lent : c'.lent? = c.lent?)
      (inUse : ∀ k, k ∈ hub'.pool.inUse ↔ k ∈ hub.pool.inUse ∧ k ≠ h.id)

theorem entry_go (e : Endpoint) (x : Acquisition) (hub : Hub) :
    Entry .go (.acquiring e x) hub (go e x hub).1 (go e x hub).2 := by
  unfold go
  cases hm : x.step e hub with
  | wait => exact .none rfl rfl
  | next y hub' => exact .none rfl (Acquisition.inUse_of_step (by rw [hm]; rfl) (by simp [hm]))
  | fail error hub' => exact .none rfl (Acquisition.inUse_of_step (by rw [hm]; rfl) (by simp [hm]))
  | done h hub' =>
    obtain ⟨t, ht⟩ := Option.isSome_iff_exists.1 (Acquisition.transport_of_done hm)
    exact .lends h.id rfl (by rw [lent?, ht]; rfl) fun k => Acquisition.mem_inUse_of_done hm

theorem entry_release (h : Handle) (hub : Hub) :
    Entry .release (.holding h) hub (.holding (hub.release h).1) (hub.release h).2 := by
  have hback : (holding (hub.release h).1).lent? = .none := by
    rw [lent?, hub.transport_release h]
    rfl
  cases ht : h.transport with
  | none =>
    refine .none (hback.trans ?_) ?_
    · rw [lent?, ht]
      rfl
    · simp only [Hub.release, Pool.release, ht]
  | some t =>
    have hsome : h.transport.isSome = true := by rw [ht]; rfl
    exact .returns h.id (by rw [lent?, ht]; rfl) hback fun k => Hub.mem_inUse_release hsome

theorem entry_discard (h : Handle) (hub : Hub) :
    Entry .discard (.holding h) hub (.holding (hub.discard h).1) (hub.discard h).2 := by
  cases ht : h.transport with
  | none =>
    have hdetached : h.isDetached = true := Option.isNone_iff_eq_none.2 ht
    exact .strikes h rfl rfl hdetached (lent?_of_detached hdetached).symm
      fun k => Hub.mem_inUse_discard
  | some t => exact .returns h.id (by rw [lent?, ht]; rfl) rfl fun k => Hub.mem_inUse_discard

theorem entry_act (told : a.Told) (c : Client) (hub : Hub) :
    Entry a c hub (c.act a hub).1 (c.act a hub).2 := by
  cases c with
  | away => cases a <;> exact .none rfl rfl
  | acquiring e x =>
    cases a with
    | go => exact entry_go e x hub
    | _ => exact .none rfl rfl
  | holding h =>
    cases a with
    | release => exact entry_release h hub
    | discard => exact entry_discard h hub
    | secure session =>
      cases session with
      | none => exact told.elim
      | some s =>
        refine .none ?_ rfl
        cases ht : h.transport <;> simp [act, secure, lent?, ht]
    | drop => exact told.elim
    | _ => exact .none rfl rfl

end Client

namespace Clientele

/-- A client was given the connection of this number and has not given it back. -/
def lent (s : Clientele) (n : Nat) : Prop := ∃ i, (s.client i).lent? = some n

def Act.Told : Act → Prop
  | .client _ a => a.Told
  | _ => True

/-- A handle that has given its connection back is discarded while someone else has the
connection. -/
def strikes (s : Clientele) : Act → Prop
  | .client i .discard => ∃ h, s.client i = .holding h ∧ h.isDetached = true ∧ s.lent h.id
  | _ => False

def Exact (s : Clientele) : Prop := ∀ n, n ∈ s.hub.pool.inUse ↔ s.lent n

variable {origin : Pool} {s s' : Clientele} {a : Act}

theorem lent_update_iff (hub : Hub) {i n : Nat} {c : Client} :
    (⟨hub, Function.update s.client i c⟩ : Clientele).lent n ↔
      c.lent? = some n ∨ ∃ j, j ≠ i ∧ (s.client j).lent? = some n := by
  constructor
  · rintro ⟨j, hj⟩
    by_cases hji : j = i
    · subst hji
      exact .inl (by simpa using hj)
    · exact .inr ⟨j, hji, by simpa [hji] using hj⟩
  · rintro (hc | ⟨j, hji, hj⟩)
    · exact ⟨i, by simpa using hc⟩
    · exact ⟨j, by simpa [hji] using hj⟩

theorem lent_iff (i n : Nat) :
    s.lent n ↔ (s.client i).lent? = some n ∨ ∃ j, j ≠ i ∧ (s.client j).lent? = some n := by
  have hself := Function.update_eq_self i s.client
  rw [← lent_update_iff s.hub, hself]

theorem lent_apart (h : Custody origin s.hub (s.tenure .nothing)) {i j n : Nat}
    (hi : (s.client i).lent? = some n) (hj : (s.client j).lent? = some n) : i = j :=
  Option.some.inj
    (h.ids.apart (some i) (some j) n (Client.id?_of_lent? hi) (Client.id?_of_lent? hj))

/-- What one act means to what is lent and to what is in use. -/
inductive Booking (s : Clientele) (a : Act) (s' : Clientele) : Prop where
  | none (lent : ∀ k, s'.lent k ↔ s.lent k) (inUse : s'.hub.pool.inUse = s.hub.pool.inUse)
  | lends (n : Nat) (lent : ∀ k, s'.lent k ↔ k = n ∨ s.lent k)
      (inUse : ∀ k, k ∈ s'.hub.pool.inUse ↔ k = n ∨ k ∈ s.hub.pool.inUse)
  | returns (n : Nat) (lent : ∀ k, s'.lent k ↔ s.lent k ∧ k ≠ n)
      (inUse : ∀ k, k ∈ s'.hub.pool.inUse ↔ k ∈ s.hub.pool.inUse ∧ k ≠ n)
  | strikes (n : Nat) (struck : s.lent n → s.strikes a) (lent : ∀ k, s'.lent k ↔ s.lent k)
      (inUse : ∀ k, k ∈ s'.hub.pool.inUse ↔ k ∈ s.hub.pool.inUse ∧ k ≠ n)

theorem booking_apply (h : Custody origin s.hub (s.tenure .nothing)) (told : a.Told) :
    Booking s a (s.apply a) := by
  cases a with
  | link n change => exact .none (fun _ => Iff.rfl) rfl
  | wait ms => exact .none (fun _ => Iff.rfl) rfl
  | client i a =>
    have hsame (hlent : ((s.client i).act a s.hub).1.lent? = (s.client i).lent?) (k : Nat) :
        (s.apply (.client i a)).lent k ↔ s.lent k := by
      rw [apply, lent_update_iff, hlent, ← lent_iff i k]
    cases Client.entry_act told (s.client i) s.hub with
    | none lent inUse => exact .none (hsame lent) inUse
    | lends n before after inUse =>
      refine .lends n (fun k => ?_) inUse
      rw [apply, lent_update_iff, after, lent_iff i k, before]
      simp [eq_comm]
    | returns n before after inUse =>
      refine .returns n (fun k => ?_) inUse
      rw [apply, lent_update_iff, after, lent_iff i k, before]
      constructor
      · rintro (hk | ⟨j, hji, hj⟩)
        · cases hk
        · refine ⟨.inr ⟨j, hji, hj⟩, ?_⟩
          rintro rfl
          exact hji (lent_apart h hj before)
      · rintro ⟨hk | hk, hne⟩
        · exact absurd (Option.some.inj hk).symm hne
        · exact .inr hk
    | strikes x act holding detached lent inUse =>
      cases act
      exact .strikes x.id (fun hx => ⟨x, holding, detached, hx⟩) (hsame lent) inUse

theorem exact_apply (h : Custody origin s.hub (s.tenure .nothing)) (told : a.Told)
    (hs : s.Exact) (hstrikes : ¬s.strikes a) : (s.apply a).Exact := by
  intro k
  cases booking_apply h told with
  | none lent inUse => rw [lent k, inUse, hs k]
  | lends n lent inUse => rw [lent k, inUse k, hs k]
  | returns n lent inUse => rw [lent k, inUse k, hs k]
  | strikes n struck lent inUse =>
    rw [lent k, inUse k, hs k, and_iff_left_iff_imp]
    rintro hk rfl
    exact hstrikes (struck hk)

theorem lent_of_inUse_apply (h : Custody origin s.hub (s.tenure .nothing)) (told : a.Told)
    (hs : ∀ n ∈ s.hub.pool.inUse, s.lent n) :
    ∀ n ∈ (s.apply a).hub.pool.inUse, (s.apply a).lent n := by
  intro k hk
  cases booking_apply h told with
  | none lent inUse => exact (lent k).2 (hs k (inUse ▸ hk))
  | lends n lent inUse => exact (lent k).2 (((inUse k).1 hk).imp_right (hs k))
  | returns n lent inUse => exact (lent k).2 (((inUse k).1 hk).imp_left (hs k))
  | strikes n struck lent inUse => exact (lent k).2 (hs k ((inUse k).1 hk).1)

theorem not_exact_of_strikes (hs : s.strikes a) : ¬(s.apply a).Exact := by
  intro hexact
  cases a with
  | client i a =>
    cases a with
    | discard =>
      obtain ⟨x, hx, hdetached, j, hj⟩ := hs
      have hji : j ≠ i := by
        rintro rfl
        rw [hx, Client.lent?_of_detached hdetached] at hj
        cases hj
      have hlent : (s.apply (.client i .discard)).lent x.id :=
        (lent_update_iff _).2 (.inr ⟨j, hji, hj⟩)
      have hout : x.id ∉ (s.apply (.client i .discard)).hub.pool.inUse := by
        simp [apply, hx, Client.act, Hub.discard, Pool.discard, Pool.mem_inUse_dismiss]
      exact hout ((hexact x.id).2 hlent)
    | _ => exact hs
  | _ => exact hs

section Run

variable {proxies : Proxies} {config : PoolConfig}

theorem exact_new : (new proxies config).Exact := by
  intro n
  simp [new, Hub.new, Pool.new, lent, Client.lent?]

theorem exact_run {acts : List Act} (told : ∀ a ∈ acts, a.Told)
    (hstrikes : ∀ before a, before ++ [a] <+: acts → ¬((new proxies config).run before).strikes a) :
    ((new proxies config).run acts).Exact := by
  induction acts using List.reverseRecOn with
  | nil => exact exact_new
  | append_singleton acts a ih =>
    have hacts : acts <+: acts ++ [a] := List.prefix_append acts [a]
    have hexact := ih (fun b hb => told b (hacts.subset hb))
      fun before b hb => hstrikes before b (hb.trans hacts)
    rw [run_concat]
    exact exact_apply (custody_run (custody_new proxies config) acts)
      (told a (by simp)) hexact (hstrikes acts a (List.prefix_refl _))

theorem lent_of_inUse_run {acts : List Act} (told : ∀ a ∈ acts, a.Told) :
    ∀ n ∈ ((new proxies config).run acts).hub.pool.inUse,
      ((new proxies config).run acts).lent n := by
  induction acts using List.reverseRecOn with
  | nil => exact fun n => (exact_new n).1
  | append_singleton acts a ih =>
    rw [run_concat]
    exact lent_of_inUse_apply (custody_run (custody_new proxies config) acts)
      (told a (by simp)) (ih fun b hb => told b (List.mem_append_left [a] hb))

end Run

theorem hub_of_detached {i : Nat} {x : Handle} (hx : s.client i = .holding x)
    (hd : x.isDetached = true) :
    (s.apply (.client i .release)).hub = s.hub ∧
      (s.apply (.client i .discard)).hub.pool.idle = s.hub.pool.idle ∧
      ((s.apply (.client i .discard)).hub = s.hub ↔ x.id ∉ s.hub.pool.inUse) := by
  have ht : x.transport = none := Option.isNone_iff_eq_none.1 hd
  have hdiscard : (s.apply (.client i .discard)).hub = (s.hub.discard x).2 := by
    simp only [apply, hx, Client.act]
  refine ⟨by simp [apply, hx, Client.act, Hub.release, Pool.release, ht], by rw [hdiscard]; rfl, ?_⟩
  rw [hdiscard]
  constructor
  · intro heq hmem
    rw [← heq] at hmem
    exact (Hub.mem_inUse_discard.1 hmem).2 rfl
  · intro hout
    have hfilter : s.hub.pool.inUse.filter (· != x.id) = s.hub.pool.inUse := by
      refine List.filter_eq_self.2 fun n hn => bne_iff_ne.2 ?_
      rintro rfl
      exact hout hn
    rw [Hub.discard, Pool.discard, Pool.dismiss, hfilter]

/-- The numbers in use are those of the connections that were lent and have not come back, as long
as nobody discards a handle whose connection he has returned and someone else has got. Apart from
that, disposing of a handle again changes nothing, and no number is in use that should not be. -/
theorem inUse_exact_iff (proxies : Proxies) (config : PoolConfig) (acts : List Act)
    (told : ∀ a ∈ acts, a.Told) :
    let after (acts : List Act) := (new proxies config).run acts
    ((∀ before, before <+: acts → (after before).Exact) ↔
      ∀ before a, before ++ [a] <+: acts → ¬(after before).strikes a) ∧
    (∀ n ∈ (after acts).hub.pool.inUse, (after acts).lent n) ∧
    ∀ i h, (after acts).client i = .holding h → h.isDetached = true →
      ((after acts).apply (.client i .release)).hub = (after acts).hub ∧
      ((after acts).apply (.client i .discard)).hub.pool.idle = (after acts).hub.pool.idle ∧
      (((after acts).apply (.client i .discard)).hub = (after acts).hub ↔
        h.id ∉ (after acts).hub.pool.inUse) := by
  refine ⟨⟨fun hexact before a hb hstrikes => ?_, fun hstrikes before hb => ?_⟩,
    lent_of_inUse_run told, fun i h hx hd => hub_of_detached hx hd⟩
  · have hafter : ((new proxies config).run (before ++ [a])).Exact := hexact (before ++ [a]) hb
    rw [run_concat] at hafter
    exact not_exact_of_strikes hstrikes hafter
  · exact exact_run (fun a ha => told a (hb.subset ha))
      fun init a ha => hstrikes init a (ha.trans hb)

/-- A connection is lent, returned and lent to someone else, and then the first handle is discarded
once more. -/
def returnedTwice (e : Endpoint) : List Act :=
  [.client 0 (.ask e), .client 0 .go, .link 0 fun l => { l with dial := .connected },
    .client 0 .go, .client 0 .release, .client 1 (.ask e), .client 1 .go, .client 0 .discard]

theorem told_returnedTwice (e : Endpoint) : ∀ a ∈ returnedTwice e, a.Told := by
  simp [returnedTwice, Act.Told, Client.Act.Told]

theorem lent_returnedTwice :
    let s := (new .none .standard).run (returnedTwice ⟨"h.example", 80, false⟩)
    s.lent 1 ∧ s.hub.pool.inUse = [] :=
  ⟨⟨1, by decide +kernel⟩, by decide +kernel⟩

theorem inUse_exact_iff_returnedTwice :
    let acts := returnedTwice ⟨"h.example", 80, false⟩
    (∀ a ∈ acts, a.Told) ∧
      ∃ before a, before ++ [a] <+: acts ∧ ((new .none .standard).run before).strikes a := by
  refine ⟨told_returnedTwice _, ?_⟩
  have hiff := (inUse_exact_iff .none .standard _ (told_returnedTwice ⟨"h.example", 80, false⟩)).1
  by_contra hnone
  have hexact := hiff.2 fun before a hb hs => hnone ⟨before, a, hb, hs⟩
  obtain ⟨hlent, hinUse⟩ := lent_returnedTwice
  have hin := (hexact _ (List.prefix_refl _) 1).2 hlent
  rw [hinUse] at hin
  cases hin

/-- The pool ends without the only connection that there is, which the second client holds. -/
theorem returnedTwice_not_exact :
    let acts := returnedTwice ⟨"h.example", 80, false⟩
    let after (acts : List Act) := (new .none .standard).run acts
    (∀ a ∈ acts, a.Told) ∧ (after acts.dropLast).hub.pool.inUse = [1] ∧
      (after acts).hub.pool.inUse = [] ∧ (after acts).lent 1 ∧ ¬(after acts).Exact := by
  obtain ⟨hlent, hinUse⟩ := lent_returnedTwice
  refine ⟨told_returnedTwice _, by decide +kernel, hinUse, hlent, fun hexact => ?_⟩
  have hin := (hexact 1).2 hlent
  rw [hinUse] at hin
  cases hin

end Clientele

end HttpClient
