import HttpClient.Proofs.Exchange.KeepAlive
import HttpClient.Proofs.Exchange.Progress
import HttpClient.Proofs.Exchange.Standing
set_option autoImplicit false

/-!
Every exchange comes to one result, and to each connection that it got it does one thing: it gives
it back, or it closes it. The ledger of an exchange lists what it did to connections in a run.
-/

namespace HttpClient

theorem Exclusive.withOne {ι : Type} {used : ι → Option Nat} {stored : List Nat} {bound : Nat}
    (h : Exclusive used stored bound) (o : Option Nat)
    (ho : ∀ n, o = some n → n < bound ∧ (∀ i, used i ≠ some n) ∧ n ∉ stored) :
    Exclusive (fun j : Option ι => j.elim o used) stored bound where
  apart i j n hi hj := by
    cases i <;> cases j
    · rfl
    · exact absurd hj ((ho n hi).2.1 _)
    · exact absurd hi ((ho n hj).2.1 _)
    · exact congrArg some (h.apart _ _ n hi hj)
  busy i n hi := by
    cases i
    · exact (ho n hi).2.2
    · exact h.busy _ n hi
  nodup := h.nodup
  below i n hi := by
    cases i
    · exact (ho n hi).1
    · exact h.below _ n hi
  storedBelow := h.storedBelow

/-- A ledger, and the number of the connection that is still open in it. A number comes once, and
it goes before another one comes. -/
inductive Kept : List Deed → Option Nat → Prop where
  | nothing : Kept [] none
  | lent {deeds : List Deed} {n : Nat} (kept : Kept deeds none) (fresh : .acquired n ∉ deeds) :
      Kept (deeds ++ [.acquired n]) (some n)
  | ended {deeds : List Deed} {n : Nat} {deed : Deed} (kept : Kept deeds (some n))
      (kind : deed = .released n ∨ deed = .discarded n) : Kept (deeds ++ [deed]) none

namespace Kept

variable {deeds : List Deed} {o : Option Nat} {n : Nat}

theorem ended_of_acquired (h : Kept deeds o) (hn : .acquired n ∈ deeds) :
    o = some n ∨ .released n ∈ deeds ∨ .discarded n ∈ deeds := by
  induction h with
  | nothing => cases hn
  | lent kept fresh ih =>
    rcases List.mem_append.1 hn with hn | hn
    · rcases ih hn with h | h | h
      · cases h
      · exact .inr (.inl (List.mem_append_left _ h))
      · exact .inr (.inr (List.mem_append_left _ h))
    · cases List.mem_singleton.1 hn
      exact .inl rfl
  | ended kept kind ih =>
    rcases List.mem_append.1 hn with hn | hn
    · rcases ih hn with h | h | h
      · cases h
        rcases kind with rfl | rfl <;> simp
      · exact .inr (.inl (List.mem_append_left _ h))
      · exact .inr (.inr (List.mem_append_left _ h))
    · rcases kind with rfl | rfl <;> cases List.mem_singleton.1 hn

/-- What is acquired is acquired once, and what is not held any more has ended once. -/
theorem count (h : Kept deeds o) (n : Nat) :
    deeds.count (.released n) + deeds.count (.discarded n) + (if o = some n then 1 else 0) =
      deeds.count (.acquired n) ∧ deeds.count (.acquired n) ≤ 1 := by
  induction h with
  | nothing => simp
  | @lent deeds m kept fresh ih =>
    by_cases hm : m = n
    · subst hm
      have := List.count_eq_zero_of_not_mem fresh
      simp at ih ⊢
      omega
    · simp [hm] at ih ⊢
      omega
  | @ended deeds m deed kept kind ih =>
    by_cases hm : m = n <;> rcases kind with rfl | rfl <;> simp [hm] at ih ⊢ <;> omega

end Kept

namespace Exchange

variable {x y : Exchange} {m : Push} {hub hub' : Hub} {lease : Lease} {arrived : Nat → Bytes}
  {deeds : List Deed} {n : Nat}

theorem OnLine.linked {sent : Bytes} (line : x.OnLine lease hub arrived sent) : x.Linked := by
  obtain ⟨h, n, l, later, line⟩ := line
  obtain ⟨hc, hn⟩ := linkOf_eq_some line.found
  intro c hx
  rw [hc] at hx
  cases hx
  rw [← Option.isSome_map, (Hub.linkOf_eq_some_iff.1 hn).1]
  rfl

theorem linked_of_none (hc : x.connection = none) : x.Linked := by
  intro h hx
  rw [hc] at hx
  cases hx

theorem Sound.linked (hx : x.Sound lease hub arrived) : x.Linked := by
  cases hs : x.stage <;> simp only [Sound, hs] at hx
  case dispatched => exact linked_of_none hx
  case acquiring => exact linked_of_none hx.1
  case securing => exact hx.2.2.linked
  case writing =>
    obtain ⟨-, -, done, -, -, line⟩ := hx
    exact line.linked
  case reading => exact hx.onLine.linked
  case parsing => exact hx.onLine.linked
  case offering => exact hx.onLine.linked
  case finished => exact linked_of_none hx

theorem id?_of_number (wired : x.Wired) (linked : x.Linked) (hn : x.number? = some n) :
    x.tenure.id? = some n := by
  obtain ⟨h, hc, rfl⟩ := Option.map_eq_some_iff.1 hn
  have hs : ∀ plan a, x.stage ≠ .acquiring plan a := by
    intro plan a hs
    rw [wired plan a hs] at hc
    cases hc
  obtain ⟨t, ht⟩ := Option.isSome_iff_exists.1 (linked h hc)
  simp [tenure_of_connection hc hs, Tenure.id?, ht]

theorem goes_of_push {result : Exchange × Hub} (h : x.push m hub = some result) :
    x.Goes hub result := by
  cases m with
  | go quota => exact goes_of_step h
  | cancel cause =>
    simp only [push] at h
    split at h
    · cases h
    · next hf =>
      cases h
      simp only [cancel, hf]
      exact goes_fail (.refl x) .untouched _

theorem LetsGo.not_released (l : x.LetsGo false hub hub' deeds) : .released n ∉ deeds := by
  cases l with
  | nothing => simp
  | released connection fit => cases fit
  | discarded => simp

theorem Course.complete_of_released (c : x.Course m hub y hub' deeds)
    (hn : .released n ∈ deeds) :
    (∃ plan r data q h, x.Completes plan r data q h ∧ h.id = n) ∧ y.stage = .finished ∧
      y.channel = x.channel.complete := by
  cases c with
  | continues => cases hn
  | acquires => simp at hn
  | answers => cases hn
  | retries stage first nothing hseen touched letsGo => exact absurd hn letsGo.not_released
  | fails fault ended =>
    obtain ⟨hub₁, calm, letsGo⟩ := ended.letsGo
    exact absurd hn letsGo.not_released
  | abandons gone letsGo => exact absurd hn letsGo.not_released
  | @completes plan r data q trailers deeds stage feed letsGo finished connection mailbox channel =>
    cases letsGo with
    | nothing => cases hn
    | discarded => simp at hn
    | @released h connection fit =>
      simp only [List.mem_singleton, Deed.released.injEq] at hn
      simp only [reusable, Bool.and_eq_true, Bool.not_eq_true', List.isEmpty_iff] at fit
      exact ⟨⟨plan, r, data, q, h, ⟨stage, ⟨trailers, feed⟩, fit.1.1, fit.1.2, fit.2, connection⟩,
        hn.symm⟩, finished, channel⟩

theorem Course.tenure_of_discarded (c : x.Course m hub y hub' deeds)
    (hn : .discarded n ∈ deeds) : y.tenure.id? = none := by
  cases c with
  | continues => cases hn
  | acquires => simp at hn
  | answers => cases hn
  | retries stage first nothing hseen touched letsGo next =>
    rw [tenure_of_acquiring next]
    rfl
  | completes stage feed letsGo finished connection =>
    rw [tenure_of_finished finished connection]
    rfl
  | fails fault ended =>
    rw [tenure_of_finished ended.finished ended.connection]
    rfl
  | abandons gone letsGo finished connection =>
    rw [tenure_of_finished finished connection]
    rfl

theorem Books.number_of_discarded (b : x.Books hub y hub' deeds) (hn : .discarded n ∈ deeds) :
    x.number? = some n := by
  cases b with
  | same => cases hn
  | lent => simp at hn
  | ended kind before after inUse =>
    rcases kind with rfl | rfl <;> simp at hn
    exact hn ▸ before

theorem LetsGo.idle_of_discarded {back : Bool} (l : x.LetsGo back hub hub' deeds)
    (hn : .discarded n ∈ deeds) : hub'.pool.idle = hub.pool.idle := by
  cases l with
  | nothing => rfl
  | released connection fit => simp at hn
  | discarded => rfl

theorem Touched.idle_eq (t : x.Touched hub hub') : hub'.pool.idle = hub.pool.idle := by
  cases t <;> rfl

theorem Course.idle_of_discarded (c : x.Course m hub y hub' deeds) (hn : .discarded n ∈ deeds) :
    ∀ idle ∈ hub'.pool.idle, idle ∈ hub.pool.idle := by
  cases c with
  | continues => cases hn
  | acquires => simp at hn
  | answers => cases hn
  | retries stage first nothing hseen touched letsGo =>
    rw [letsGo.idle_of_discarded hn, touched.idle_eq]
    exact fun _ h => h
  | completes stage feed letsGo =>
    rw [letsGo.idle_of_discarded hn]
    exact fun _ h => h
  | fails fault ended =>
    obtain ⟨hub₁, calm, letsGo⟩ := ended.letsGo
    rw [letsGo.idle_of_discarded hn]
    exact calm.idle
  | abandons gone letsGo =>
    rw [letsGo.idle_of_discarded hn]
    exact fun _ h => h

theorem Course.abandoned (c : x.Course m hub y hub' deeds) (hm : y.mailbox = .abandoned) :
    x.mailbox = .abandoned := by
  cases c with
  | continues running quiet => exact quiet.mailbox ▸ hm
  | acquires stage step running connection quiet => exact quiet.mailbox ▸ hm
  | answers stage feed made waiting mailbox =>
    rw [mailbox] at hm
    cases hm
  | retries stage first nothing hseen touched letsGo next retried connection quiet =>
    exact quiet.mailbox ▸ hm
  | completes stage feed letsGo finished connection mailbox => exact mailbox ▸ hm
  | fails fault ended =>
    by_cases he : x.mailbox = .empty
    · rw [ended.waiting he] at hm
      cases hm
    · exact ended.answered he ▸ hm
  | abandons gone letsGo finished connection quiet => exact quiet.mailbox ▸ hm

theorem finished_cancel (x : Exchange) (cause : Cause) (hub : Hub) :
    (x.cancel cause hub).1.stage = .finished := by
  unfold cancel
  split
  · next hf => exact x.isFinished_iff.1 hf
  · exact (quits_fail x _ hub).stage

/-- In the middle of a handshake the handle is without its connection. To cancel it then is to
cancel it before. -/
theorem cancel_detached (x : Exchange) (cause : Cause) (hub : Hub) (hx : x.isFinished = false) :
    { x with connection := x.connection.map Handle.detached }.cancel cause hub =
      x.cancel cause hub := by
  -- Only the number of the handle counts when it is discarded, and that is still there.
  have hd : { x with connection := x.connection.map Handle.detached }.isFinished = false := hx
  simp only [cancel, hd, hx, fail, discardConnection]
  cases x.connection <;> rfl

end Exchange

namespace Traffic

open Function (update)

def Act.push? : Act → Option (Nat × Push)
  | .step i quota => some (i, .go quota)
  | .cancel i cause => some (i, .cancel cause)
  | _ => none

def number? (s : Traffic) (i : Nat) : Option Nat := (s.exchange i).bind Exchange.number?

def deeds (s : Traffic) (a : Act) (i : Nat) : List Deed :=
  match a.push?, s.exchange i, (s.apply a).exchange i with
  | some (_, m), some x, some y => x.deeds m y
  | _, _, _ => []

def ledger (s : Traffic) (i : Nat) : List Act → List Deed
  | [] => []
  | a :: acts => s.deeds a i ++ (s.apply a).ledger i acts

theorem ledger_append (s : Traffic) (i : Nat) (acts more : List Act) :
    s.ledger i (acts ++ more) = s.ledger i acts ++ (s.run acts).ledger i more := by
  induction acts generalizing s with
  | nil => rfl
  | cons a acts ih =>
    simp only [List.cons_append, ledger, ih, List.append_assoc]
    rfl

/-- What an act comes to: a push, a new exchange, a call, or nothing that an exchange or the pool
would notice. -/
inductive Change (s : Traffic) (a : Act) (t : Traffic) : Prop where
  | pushed {i : Nat} {m : Push} {x : Exchange} {result : Exchange × Hub}
      (act : a.push? = some (i, m)) (found : s.exchange i = some x)
      (push : x.push m s.hub = some result) (same : t = s.put i x result)
  | started {i : Nat} {request : Request} {options : ClientOptions} {defaults : Fields}
      (act : a.push? = none) (fresh : s.exchange i = none) (hub : t.hub = s.hub)
      (exchange : t.exchange = update s.exchange i (some (.new i request options defaults)))
  | called {i : Nat} {x y : Exchange} (act : a.push? = none) (found : s.exchange i = some x)
      (called : x.Called y) (left : y.mailbox = x.mailbox ∨ a = .leave i) (hub : t.hub = s.hub)
      (exchange : t.exchange = update s.exchange i (some y))
  | passed (exchange : t.exchange = s.exchange) (pool : t.hub.pool = s.hub.pool)
      (links : t.hub.links.length = s.hub.links.length)

theorem change_of_apply (s : Traffic) (a : Act) : s.Change a (s.apply a) := by
  have hsame : s.Change a s := .passed rfl rfl rfl
  cases a with
  | start i request options defaults =>
    simp only [apply]
    cases hx : s.exchange i with
    | none => exact .started rfl hx rfl rfl
    | some x => exact hsame
  | step i quota =>
    simp only [apply]
    cases hx : s.exchange i with
    | none => exact hsame
    | some x =>
      cases hstep : x.step quota s.hub with
      | none => simpa only [hstep] using hsame
      | some result => simpa only [hstep] using .pushed rfl hx hstep rfl
  | cancel i cause =>
    simp only [apply]
    cases hx : s.exchange i with
    | none => exact hsame
    | some x =>
      cases hf : x.isFinished with
      | true =>
        have hself : x.cancel cause s.hub = (x, s.hub) := by
          simp only [Exchange.cancel, hf, ite_true]
        show s.Change (.cancel i cause) (s.put i x (x.cancel cause s.hub))
        rw [hself]
        refine .passed ?_ rfl rfl
        simp only [put, ← hx, Function.update_eq_self]
      | false => exact .pushed rfl hx (by simp [Exchange.push, hf]) rfl
  | leave i =>
    simp only [apply]
    cases hx : s.exchange i with
    | none => exact hsame
    | some x => exact .called rfl hx x.called_leave (.inr rfl) rfl rfl
  | pull i reader =>
    simp only [apply]
    cases hx : s.exchange i with
    | none => exact hsame
    | some x => exact .called rfl hx (x.called_pull reader) (.inl rfl) rfl rfl
  | far n act =>
    simp only [apply]
    cases hl : s.hub.links[n]? with
    | none => exact hsame
    | some l => exact .passed rfl rfl (by simp [Hub.setLink])
  | wait ms => exact .passed rfl rfl rfl

theorem apply_of_push {s : Traffic} {a : Act} {i : Nat} {m : Push} {x : Exchange}
    {result : Exchange × Hub} (act : a.push? = some (i, m)) (found : s.exchange i = some x)
    (push : x.push m s.hub = some result) : s.apply a = s.put i x result := by
  cases a <;> simp only [Act.push?, Option.some.injEq, Prod.mk.injEq, reduceCtorEq] at act
  case step =>
    obtain ⟨rfl, rfl⟩ := act
    have hstep : x.step _ s.hub = some result := push
    simp only [apply, found, hstep]
  case cancel =>
    obtain ⟨rfl, rfl⟩ := act
    simp only [Exchange.push] at push
    split at push
    · cases push
    · cases push
      simp only [apply, found]

/-- What each exchange holds, and beside them someone who never lets go of `spare`. -/
def beside (spare : Tenure) (s : Traffic) : Option Nat → Tenure
  | none => spare
  | some i => s.tenure i

/-- The number was given to a connection, and there is none of this number any more. -/
structure Gone (s : Traffic) (n : Nat) : Prop where
  given : n < s.hub.pool.nextId
  held : ∀ i, (s.tenure i).id? ≠ some n
  idle : n ∉ s.hub.pool.idle.map (·.id)

section Gone

variable {origin : Pool} {s t : Traffic} {a : Act} {i n : Nat} {x y : Exchange} {spare : Tenure}

theorem beside_of_update (h : t.exchange = update s.exchange i (some y)) :
    t.beside spare = update (s.beside spare) (some i) y.tenure := by
  funext j
  cases j with
  | none => rfl
  | some j =>
    have ht := congrFun (tenure_of_update h) j
    by_cases hj : j = i
    · subst hj
      rw [Function.update_self] at ht ⊢
      exact ht
    · rw [Function.update_of_ne hj] at ht
      rw [Function.update_of_ne (by simpa using hj)]
      exact ht

theorem Change.custody (c : s.Change a t) (h : Custody origin s.hub (s.beside spare)) :
    Custody origin t.hub (t.beside spare) := by
  cases c with
  | @pushed i m x result act found push same =>
    have hi : s.beside spare (some i) = x.tenure := tenure_of_exchange found
    rw [same, beside_of_update (s := s) rfl]
    exact (Exchange.goes_of_push push).2.custody h hi
  | started act fresh hub exchange =>
    rw [hub, beside_of_update exchange]
    exact h.vacate _ rfl rfl
  | @called i x y act found called left hub exchange =>
    have hi : s.beside spare (some i) = y.tenure := by
      have : y.tenure = x.tenure := by
        simp only [Exchange.tenure, called.stage, called.stays.connection]
      rw [this]
      exact tenure_of_exchange found
    rw [hub, beside_of_update exchange]
    exact h.keep hi
  | passed exchange pool links =>
    have hb : t.beside spare = s.beside spare := by
      funext j
      cases j with
      | none => rfl
      | some j => simp only [beside, tenure, exchange]
    rw [hb]
    exact h.of_eq (by rw [pool]) (by rw [pool]) (by rw [pool]) links

theorem Gone.custody (hg : s.Gone n) (h : Custody origin s.hub s.tenure) :
    Custody origin s.hub (s.beside (.number n)) where
  ids := by
    have hids : Tenure.id? ∘ s.beside (.number n) =
        fun j => j.elim (some n) (Tenure.id? ∘ s.tenure) := by
      funext j
      cases j <;> rfl
    rw [hids]
    exact h.ids.withOne (some n) fun k hk => by
      cases hk
      exact ⟨hg.given, hg.held, hg.idle⟩
  links := by
    have hlinks : Tenure.link? ∘ s.beside (.number n) =
        fun j => j.elim none (Tenure.link? ∘ s.tenure) := by
      funext j
      cases j <;> rfl
    rw [hlinks]
    exact h.links.withOne none (by simp)
  room := h.room
  config := h.config
  numbers := h.numbers

theorem gone_of_custody (h : Custody origin s.hub (s.beside (.number n))) : s.Gone n where
  given := h.ids.below none n rfl
  held i hi := by cases h.ids.apart none (some i) n rfl hi
  idle := h.ids.busy none n rfl

theorem Gone.change (hg : s.Gone n) (h : Custody origin s.hub s.tenure) (c : s.Change a t) :
    t.Gone n :=
  gone_of_custody (c.custody (hg.custody h))

theorem gone_of_discarded {m : Push} {result : Exchange × Hub} {ds : List Deed}
    (h : Orderly origin s) (found : s.exchange i = some x) (push : x.push m s.hub = some result)
    (c : x.Course m s.hub result.1 result.2 ds) (books : x.Books s.hub result.1 result.2 ds)
    (hn : .discarded n ∈ ds) : (s.put i x result).Gone n := by
  have hsound := h.sound i x found
  have hnumber := books.number_of_discarded hn
  have hid : (Tenure.id? ∘ s.tenure) i = some n := by
    rw [Function.comp_apply, tenure_of_exchange found]
    exact Exchange.id?_of_number hsound.wired hsound.linked hnumber
  have hrebased : Orderly s.hub.pool s := { h with custody := h.custody.rebase }
  have hnext := (hrebased.put found (Exchange.goes_of_push push)).custody.numbers
  refine ⟨Nat.lt_of_lt_of_le (h.custody.ids.below i n hid) hnext, fun j hj => ?_, fun hmem => ?_⟩
  · rw [tenure_of_update (s := s) (i := i) (y := result.1) rfl] at hj
    by_cases hji : j = i
    · subst hji
      rw [Function.update_self, c.tenure_of_discarded hn] at hj
      cases hj
    · rw [Function.update_of_ne hji] at hj
      exact hji (h.custody.ids.apart j i n hj hid)
  · obtain ⟨d, hd, rfl⟩ := List.mem_map.1 hmem
    exact h.custody.ids.busy i d.id hid (List.mem_map_of_mem (c.idle_of_discarded hn d hd))

end Gone

/-- Where a run has come to, with the ledgers of its exchanges. -/
structure Settled (origin : Pool) (s : Traffic) (ledger : Nat → List Deed) : Prop where
  orderly : Orderly origin s
  stands : ∀ i x, s.exchange i = some x → x.Stands
  inUse : ∀ n, n ∈ s.hub.pool.inUse ↔ ∃ i, s.number? i = some n
  kept : ∀ i, Kept (ledger i) (s.number? i)
  gone : ∀ i n, .discarded n ∈ ledger i → s.Gone n
  released : ∀ i n, .released n ∈ ledger i →
    ∃ x, s.exchange i = some x ∧ x.stage = .finished ∧ x.channel.outcome = .complete

section Settled

variable {origin : Pool} {s t : Traffic} {a : Act} {i n : Nat} {x y : Exchange}
  {ledger : Nat → List Deed}

theorem number?_of_exchange (hx : s.exchange i = some x) : s.number? i = x.number? := by
  simp [number?, hx]

theorem number?_of_update (h : t.exchange = update s.exchange i (some y)) :
    t.number? = update s.number? i y.number? := by
  funext j
  by_cases hj : j = i
  · subst hj
    simp [number?, h]
  · simp [number?, h, Function.update_of_ne hj]

theorem deeds_of_put {m : Push} {result : Exchange × Hub} (act : a.push? = some (i, m))
    (found : s.exchange i = some x) (same : s.apply a = s.put i x result) :
    s.deeds a = update (fun _ => []) i (x.deeds m result.1) := by
  funext j
  by_cases hj : j = i
  · subst hj
    simp [deeds, act, found, same, put]
  · rw [Function.update_of_ne hj]
    simp only [deeds, act, same, put, Function.update_of_ne hj]
    cases hx : s.exchange j with
    | none => rfl
    | some z => exact Exchange.deeds_of_number rfl m

theorem deeds_of_no_push (act : a.push? = none) : s.deeds a = fun _ => [] := by
  funext j
  simp only [deeds, act]

theorem deeds_of_same (h : (s.apply a).exchange = s.exchange) : s.deeds a = fun _ => [] := by
  funext j
  simp only [deeds, h]
  cases a.push? with
  | none => rfl
  | some found =>
    cases hx : s.exchange j with
    | none => rfl
    | some z => exact Exchange.deeds_of_number rfl found.2

theorem Orderly.id?_of_number (h : Orderly origin s) (hn : s.number? i = some n) :
    (s.tenure i).id? = some n := by
  obtain ⟨x, hx, hn⟩ := Option.bind_eq_some_iff.1 hn
  rw [tenure_of_exchange hx]
  exact Exchange.id?_of_number (h.sound i x hx).wired (h.sound i x hx).linked hn

theorem Orderly.number_apart {j : Nat} (h : Orderly origin s) (hi : s.number? i = some n)
    (hj : s.number? j = some n) : i = j :=
  h.custody.ids.apart i j n (h.id?_of_number hi) (h.id?_of_number hj)

theorem Gone.number_ne (hg : s.Gone n) (h : Orderly origin s) (i : Nat) : s.number? i ≠ some n :=
  fun hi => hg.held i (h.id?_of_number hi)

/-- What an act is to the pool's books: a push of one exchange, or nothing. -/
inductive Entry (s : Traffic) (a : Act) (t : Traffic) : Prop where
  | pushed {i : Nat} {m : Push} {x : Exchange} {result : Exchange × Hub} {ds : List Deed}
      (found : s.exchange i = some x) (push : x.push m s.hub = some result)
      (course : x.Course m s.hub result.1 result.2 ds) (same : t = s.put i x result)
      (books : x.Books s.hub result.1 t.hub ds)
      (deeds : s.deeds a = update (fun _ => []) i ds)
      (number : t.number? = update s.number? i result.1.number?)
  | nothing (deeds : s.deeds a = fun _ => []) (number : t.number? = s.number?)
      (inUse : t.hub.pool.inUse = s.hub.pool.inUse)
      (ended : ∀ j x, s.exchange j = some x → ∃ y, t.exchange j = some y ∧ y.stage = x.stage ∧
        y.channel.outcome = x.channel.outcome)

namespace Settled

theorem new (proxies : Proxies) (config : PoolConfig) :
    Settled (.new proxies config) (Traffic.new proxies config) fun _ => [] where
  orderly := .new proxies config
  stands i x hx := by cases hx
  inUse n := by simp [Traffic.new, Hub.new, Pool.new, number?]
  kept i := .nothing
  gone i n hn := by cases hn
  released i n hn := by cases hn

theorem stands_apply (h : Settled origin s ledger) (a : Act) (i : Nat) (y : Exchange)
    (hy : (s.apply a).exchange i = some y) : y.Stands := by
  have hc := s.change_of_apply a
  generalize s.apply a = t at hy hc
  have hupdate : ∀ j z, z.Stands → t.exchange = update s.exchange j (some z) → y.Stands := by
    intro j z hz ht
    rw [ht] at hy
    by_cases hj : i = j
    · subst hj
      rw [Function.update_self, Option.some.injEq] at hy
      exact hy ▸ hz
    · rw [Function.update_of_ne hj] at hy
      exact h.stands i y hy
  cases hc with
  | @pushed j m x result act found push same =>
    have hx := (h.stands j x found).awaited (Exchange.unfinished_of_push push)
    have hruns := Exchange.runs_of_push (h.orderly.sound j x found).wired (fun _ => hx.running) push
    exact hupdate j result.1 (hruns.stands hx) (by rw [same]; rfl)
  | started act fresh hub exchange => exact hupdate _ _ (Exchange.stands_new ..) exchange
  | called act found called left hub exchange =>
    exact hupdate _ _ (called.stands (h.stands _ _ found)) exchange
  | passed exchange pool links => exact h.stands i y (exchange ▸ hy)

theorem entry (h : Settled origin s ledger) (a : Act) : s.Entry a (s.apply a) := by
  have hupdate : ∀ j z, (s.apply a).exchange = update s.exchange j (some z) →
      z.number? = s.number? j → (s.apply a).number? = s.number? := by
    intro j z hz hn
    rw [number?_of_update hz, hn, Function.update_eq_self]
  cases s.change_of_apply a with
  | @pushed i m x result act found push same =>
    have hsound := h.orderly.sound i x found
    have hx := (h.stands i x found).awaited (Exchange.unfinished_of_push push)
    have runs := Exchange.runs_of_push hsound.wired (fun _ => hx.running) push
    have books := runs.books hsound.wired hsound.linked
    exact .pushed found push runs same (by rw [same]; exact books) (deeds_of_put act found same)
      (number?_of_update (by rw [same]; rfl))
  | @started i request options defaults act fresh hub exchange =>
    refine .nothing (deeds_of_no_push act) (hupdate i _ exchange ?_) (by rw [hub]) fun j x hx => ?_
    · simp [number?, fresh, Exchange.number?, Exchange.new]
    · have hj : j ≠ i := by
        rintro rfl
        rw [fresh] at hx
        cases hx
      exact ⟨x, by rw [exchange, Function.update_of_ne hj, hx], rfl, rfl⟩
  | @called i x y act found called left hub exchange =>
    refine .nothing (deeds_of_no_push act) (hupdate i y exchange ?_) (by rw [hub]) fun j z hz => ?_
    · rw [number?_of_exchange found, Exchange.number?, called.stays.connection]
      rfl
    · by_cases hj : j = i
      · subst hj
        rw [found] at hz
        cases hz
        exact ⟨y, by rw [exchange, Function.update_self], called.stage, called.outcome⟩
      · exact ⟨z, by rw [exchange, Function.update_of_ne hj, hz], rfl, rfl⟩
  | passed exchange pool links =>
    refine .nothing (deeds_of_same exchange) ?_ (by rw [pool]) fun j x hx => ?_
    · funext j
      simp only [number?, exchange]
    · exact ⟨x, by rw [exchange, hx], rfl, rfl⟩

theorem inUse_apply (h : Settled origin s ledger) (e : s.Entry a t) (n : Nat) :
    n ∈ t.hub.pool.inUse ↔ ∃ j, t.number? j = some n := by
  cases e with
  | nothing deeds number inUse ended =>
    rw [inUse, number]
    exact h.inUse n
  | @pushed i m x result ds found push course same books deeds number =>
    rw [number]
    have hx := number?_of_exchange found
    cases books with
    | same hn inUse =>
      rw [hn, ← hx, Function.update_eq_self, inUse]
      exact h.inUse n
    | @lent k before after inUse =>
      rw [inUse, after, h.inUse n]
      constructor
      · rintro (rfl | ⟨j, hj⟩)
        · exact ⟨i, Function.update_self ..⟩
        · have hji : j ≠ i := by
            rintro rfl
            rw [hx, before] at hj
            cases hj
          exact ⟨j, by rw [Function.update_of_ne hji, hj]⟩
      · rintro ⟨j, hj⟩
        rcases Exclusive.used_of_update hj with ⟨-, hk⟩ | ⟨-, hj⟩
        · cases hk
          exact .inl rfl
        · exact .inr ⟨j, hj⟩
    | @ended k deed kind before after inUse =>
      rw [inUse, after, h.inUse n]
      have hi : s.number? i = some k := hx.trans before
      constructor
      · rintro ⟨⟨j, hj⟩, hk⟩
        have hji : j ≠ i := by
          rintro rfl
          rw [hi, Option.some.injEq] at hj
          exact hk hj.symm
        exact ⟨j, by rw [Function.update_of_ne hji, hj]⟩
      · rintro ⟨j, hj⟩
        rcases Exclusive.used_of_update hj with ⟨-, hk⟩ | ⟨hji, hj⟩
        · cases hk
        · refine ⟨⟨j, hj⟩, ?_⟩
          rintro rfl
          exact hji (h.orderly.number_apart hj hi)

theorem gone_apply (h : Settled origin s ledger) (a : Act) (i n : Nat)
    (hn : .discarded n ∈ ledger i ++ s.deeds a i) : (s.apply a).Gone n := by
  rcases List.mem_append.1 hn with hn | hn
  · exact (h.gone i n hn).change h.orderly.custody (s.change_of_apply a)
  · cases h.entry a with
    | nothing deeds number inUse ended =>
      rw [deeds] at hn
      cases hn
    | @pushed j m x result ds found push course same books deeds number =>
      rw [deeds] at hn
      by_cases hj : i = j
      · subst hj
        rw [Function.update_self] at hn
        rw [same] at books ⊢
        exact gone_of_discarded h.orderly found push course books hn
      · rw [Function.update_of_ne hj] at hn
        cases hn

theorem kept_apply (h : Settled origin s ledger) (a : Act) (i : Nat) :
    Kept (ledger i ++ s.deeds a i) ((s.apply a).number? i) := by
  cases h.entry a with
  | nothing deeds number inUse ended =>
    rw [deeds, number, List.append_nil]
    exact h.kept i
  | @pushed j m x result ds found push course same books deeds number =>
    rw [deeds, number]
    by_cases hj : i = j
    · subst hj
      rw [Function.update_self, Function.update_self]
      have hx := number?_of_exchange found
      have hkept := h.kept i
      rw [hx] at hkept
      cases books with
      | same hn inUse =>
        rw [hn, List.append_nil]
        exact hkept
      | @lent k before after inUse =>
        rw [after]
        rw [before] at hkept
        refine hkept.lent fun hk => ?_
        rcases hkept.ended_of_acquired hk with hnone | hreleased | hdiscarded
        · cases hnone
        · obtain ⟨y, hy, hfinished, -⟩ := h.released i k hreleased
          rw [found] at hy
          cases hy
          exact Exchange.unfinished_of_push push hfinished
        -- a number that was discarded is not handed out again
        · have hgone := (h.gone i k hdiscarded).change h.orderly.custody (s.change_of_apply a)
          refine hgone.number_ne (h.orderly.apply a) i ?_
          rw [number, Function.update_self, after]
      | @ended k deed kind before after inUse =>
        rw [after]
        rw [before] at hkept
        exact hkept.ended kind
    · rw [Function.update_of_ne hj, Function.update_of_ne hj, List.append_nil]
      exact h.kept i

theorem released_apply (h : Settled origin s ledger) (a : Act) (i n : Nat)
    (hn : .released n ∈ ledger i ++ s.deeds a i) :
    ∃ x, (s.apply a).exchange i = some x ∧ x.stage = .finished ∧
      x.channel.outcome = .complete := by
  cases h.entry a with
  | nothing deeds number inUse ended =>
    rw [deeds, List.append_nil] at hn
    obtain ⟨x, hx, hstage, houtcome⟩ := h.released i n hn
    obtain ⟨y, hy, hstage', houtcome'⟩ := ended i x hx
    exact ⟨y, hy, hstage'.trans hstage, houtcome'.trans houtcome⟩
  | @pushed j m x result ds found push course same books deeds number =>
    rw [deeds] at hn
    rw [same]
    rcases List.mem_append.1 hn with hn | hn
    · obtain ⟨y, hy, hfinished, houtcome⟩ := h.released i n hn
      have hij : i ≠ j := by
        rintro rfl
        rw [found] at hy
        cases hy
        exact Exchange.unfinished_of_push push hfinished
      exact ⟨y, by simp only [put, Function.update_of_ne hij, hy], hfinished, houtcome⟩
    · by_cases hij : i = j
      · subst hij
        rw [Function.update_self] at hn
        obtain ⟨-, hfinished, hchannel⟩ := course.complete_of_released hn
        have hx := (h.stands i x found).awaited (Exchange.unfinished_of_push push)
        refine ⟨result.1, by simp only [put, Function.update_self], hfinished, ?_⟩
        rw [hchannel]
        exact Channel.outcome_of_pending hx.outcome .complete
      · rw [Function.update_of_ne hij] at hn
        cases hn

theorem apply (h : Settled origin s ledger) (a : Act) :
    Settled origin (s.apply a) fun i => ledger i ++ s.deeds a i where
  orderly := h.orderly.apply a
  stands := h.stands_apply a
  inUse := h.inUse_apply (h.entry a)
  kept := h.kept_apply a
  gone := h.gone_apply a
  released := h.released_apply a

theorem run (h : Settled origin s ledger) (acts : List Act) :
    Settled origin (s.run acts) fun i => ledger i ++ s.ledger i acts := by
  induction acts generalizing s ledger with
  | nil =>
    simp only [Traffic.ledger, List.append_nil]
    exact h
  | cons a acts ih =>
    have := ih (h.apply a)
    simp only [List.append_assoc] at this
    exact this

end Settled

theorem keeps_apply (h : Settled origin s ledger) (a : Act) (hx : s.exchange i = some x) :
    ∃ y, (s.apply a).exchange i = some y ∧ x.Keeps y ∧
      (y.mailbox = .abandoned → x.mailbox = .abandoned ∨ a = .leave i) := by
  have hsame : ∀ {t : Traffic} {j : Nat} {z : Exchange},
      t.exchange = update s.exchange j (some z) → i ≠ j → ∃ y, t.exchange i = some y ∧
        x.Keeps y ∧ (y.mailbox = .abandoned → x.mailbox = .abandoned ∨ a = .leave i) := by
    intro t j z ht hj
    exact ⟨x, by rw [ht, Function.update_of_ne hj, hx], .refl x, .inl⟩
  cases s.change_of_apply a with
  | @pushed j m z result act found push same =>
    have hexchange : (s.apply a).exchange = update s.exchange j (some result.1) := by
      rw [same]
      rfl
    by_cases hj : i = j
    · subst hj
      rw [hx] at found
      cases found
      have hawaited := (h.stands i x hx).awaited (Exchange.unfinished_of_push push)
      have runs := Exchange.runs_of_push (h.orderly.sound i x hx).wired (fun _ => hawaited.running)
        push
      exact ⟨result.1, by rw [hexchange, Function.update_self], runs.keeps,
        fun hm => .inl (runs.abandoned hm)⟩
    · exact hsame hexchange hj
  | @started j request options defaults act fresh hub exchange =>
    refine hsame exchange ?_
    rintro rfl
    rw [hx] at fresh
    cases fresh
  | @called j z y act found called left hub exchange =>
    by_cases hj : i = j
    · subst hj
      rw [hx] at found
      cases found
      exact ⟨y, by rw [exchange, Function.update_self], called.keeps,
        fun hm => left.imp_left fun h => h.symm.trans hm⟩
    · exact hsame exchange hj
  | passed exchange pool links => exact ⟨x, by rw [exchange, hx], .refl x, .inl⟩

theorem keeps_run (h : Settled origin s ledger) (acts : List Act) (hx : s.exchange i = some x) :
    ∃ y, (s.run acts).exchange i = some y ∧ x.Keeps y := by
  induction acts generalizing s x ledger with
  | nil => exact ⟨x, hx, .refl x⟩
  | cons a acts ih =>
    obtain ⟨y, hy, hkeeps, -⟩ := keeps_apply h a hx
    obtain ⟨z, hz, hlater⟩ := ih (h.apply a) hy
    exact ⟨z, hz, hkeeps.trans hlater⟩

theorem new_of_started (hx : s.exchange i = none) (hy : (s.apply a).exchange i = some y) :
    ∃ request options defaults, y = .new i request options defaults := by
  have hother : ∀ j z, (s.apply a).exchange = update s.exchange j (some z) → i = j ∧ z = y := by
    intro j z ht
    rw [ht] at hy
    by_cases hj : i = j
    · subst hj
      rw [Function.update_self, Option.some.injEq] at hy
      exact ⟨rfl, hy⟩
    · rw [Function.update_of_ne hj, hx] at hy
      cases hy
  cases s.change_of_apply a with
  | @pushed j m z result act found push same =>
    obtain ⟨rfl, -⟩ := hother j result.1 (by rw [same]; rfl)
    rw [hx] at found
    cases found
  | started act fresh hub exchange =>
    obtain ⟨rfl, rfl⟩ := hother _ _ exchange
    exact ⟨_, _, _, rfl⟩
  | called act found called left hub exchange =>
    obtain ⟨rfl, -⟩ := hother _ _ exchange
    rw [hx] at found
    cases found
  | passed exchange pool links =>
    rw [exchange, hx] at hy
    cases hy

theorem left_of_abandoned (h : Settled origin s ledger) (acts : List Act)
    (hy : (s.run acts).exchange i = some y) (hm : y.mailbox = .abandoned) :
    (∃ x, s.exchange i = some x ∧ x.mailbox = .abandoned) ∨ .leave i ∈ acts := by
  induction acts generalizing s ledger with
  | nil => exact .inl ⟨y, hy, hm⟩
  | cons a acts ih =>
    rcases ih (h.apply a) hy with ⟨z, hz, hzm⟩ | hmem
    · cases hx : s.exchange i with
      | none =>
        obtain ⟨request, options, defaults, rfl⟩ := new_of_started hx hz
        cases hzm
      | some x =>
        obtain ⟨w, hw, -, hleft⟩ := keeps_apply h a hx
        rw [hz] at hw
        cases hw
        rcases hleft hzm with hxm | rfl
        · exact .inl ⟨x, rfl, hxm⟩
        · exact .inr List.mem_cons_self
    · exact .inr (List.mem_cons_of_mem a hmem)

/-- When an exchange ends, none of the numbers it ever had is in use. -/
theorem not_inUse_of_end (h : Settled origin s ledger) (a : Act) (hx : s.exchange i = some x)
    (hy : (s.apply a).exchange i = some y) (running : x.stage ≠ .finished)
    (finished : y.stage = .finished) (hn : .acquired n ∈ ledger i ++ s.deeds a i) :
    n ∉ (s.apply a).hub.pool.inUse := by
  have ht := h.apply a
  have hnumber : (s.apply a).number? i = none := by
    rw [number?_of_exchange hy, Exchange.number?, ((ht.stands i y hy).resolved finished).connection]
    rfl
  intro hin
  have hkept := ht.kept i
  rw [hnumber] at hkept
  rcases hkept.ended_of_acquired hn with hnone | hreleased | hdiscarded
  · cases hnone
  -- what was released is released in this very act
  · rcases List.mem_append.1 hreleased with hbefore | hnow
    · obtain ⟨z, hz, hended, -⟩ := h.released i n hbefore
      rw [hx] at hz
      cases hz
      exact running hended
    · cases h.entry a with
      | nothing deeds number inUse ended =>
        rw [deeds] at hnow
        cases hnow
      | @pushed j m z result ds found push course same books deeds number =>
        rw [deeds] at hnow
        by_cases hj : i = j
        · subst hj
          rw [Function.update_self] at hnow
          cases books with
          | same => cases hnow
          | lent => simp at hnow
          | ended kind before after inUse =>
            rcases kind with rfl | rfl <;> simp at hnow
            exact ((inUse n).1 hin).2 hnow
        · rw [Function.update_of_ne hj] at hnow
          cases hnow
  · obtain ⟨j, hj⟩ := (ht.inUse n).1 hin
    exact (ht.gone i n hdiscarded).number_ne ht.orderly j hj

end Settled

/-- The exchange takes its next steps, and nothing else happens. -/
def steps (i : Nat) (quotas : Nat → Nat) (k : Nat) : List Act :=
  (List.range k).map fun j => .step i (quotas j)

theorem steps_succ (i : Nat) (quotas : Nat → Nat) (k : Nat) :
    steps i quotas (k + 1) = .step i (quotas 0) :: steps i (fun j => quotas (j + 1)) k := by
  simp [steps, List.range_succ_eq_map]

theorem Orderly.step_eq_none_iff {origin : Pool} {s : Traffic} {i : Nat} {x : Exchange}
    (h : Orderly origin s) (hx : s.exchange i = some x) (quota : Nat) :
    x.step quota s.hub = none ↔ x.stage = .finished ∨ x.Waits s.hub := by
  refine Exchange.step_eq_none_iff fun plan n hs => h.custody.links.below i n ?_
  rw [Function.comp_apply, tenure_of_exchange hx, Exchange.tenure_of_acquiring hs]
  rfl

/-- Its own steps lead an exchange to its end, or to where it has to wait. -/
theorem exists_rest {origin : Pool} {s : Traffic} {i : Nat} {x : Exchange}
    (h : Orderly origin s) (hx : s.exchange i = some x) (quotas : Nat → Nat) :
    ∃ k y, (s.run (steps i quotas k)).exchange i = some y ∧
      (y.stage = .finished ∨ y.Waits (s.run (steps i quotas k)).hub) := by
  cases hstep : x.step (quotas 0) s.hub with
  | none => exact ⟨0, x, hx, (h.step_eq_none_iff hx _).1 hstep⟩
  | some result =>
    have happly : s.apply (.step i (quotas 0)) = s.put i x result := by
      simp only [apply, hx, hstep]
    have hput : (s.put i x result).exchange i = some result.1 := by
      simp only [put, Function.update_self]
    have later : Orderly origin (s.put i x result) := happly ▸ h.apply (.step i (quotas 0))
    -- What is left to do shrinks with each step, and the recursion goes by it.
    have nearer := Exchange.nearer_of_step hstep
    obtain ⟨k, y, hy, hrest⟩ := exists_rest later hput fun j => quotas (j + 1)
    have hrun : s.run (steps i quotas (k + 1)) =
        (s.put i x result).run (steps i (fun j => quotas (j + 1)) k) := by
      rw [steps_succ, ← happly]
      rfl
    exact ⟨k + 1, y, hrun ▸ ⟨hy, hrest⟩⟩
termination_by x.distance s.hub
decreasing_by exact nearer

/-- What a run owes to the callers of its exchanges and to the pool. It began at `origin` and has
come to `s`. -/
structure Resolves (origin : Traffic) (acts : List Act) (s : Traffic) : Prop where
  courses : ∀ a i m x result, a.push? = some (i, m) → s.exchange i = some x →
    x.push m s.hub = some result → (s.apply a).exchange i = some result.1 ∧
      x.Course m s.hub result.1 (s.apply a).hub (s.deeds a i)
  fails : ∀ a i m x failure, a.push? = some (i, m) → s.exchange i = some x →
    x.Faults s.hub m failure → ∃ y, (s.apply a).exchange i = some y ∧
      x.Fails failure s.hub y (s.apply a).hub (s.deeds a i) ∧
      y.channel.outcome = .failed failure
  /-- An exchange that is not over goes on, unless it waits for others. -/
  goesOn : ∀ i x quota, s.exchange i = some x →
    (x.push (.go quota) s.hub = none ↔ x.stage = .finished ∨ x.Waits s.hub)
  rests : ∀ i x quotas, s.exchange i = some x →
    ∃ k y, (s.run (steps i quotas k)).exchange i = some y ∧
      (y.stage = .finished ∨ y.Waits (s.run (steps i quotas k)).hub)
  /-- What the caller was told is never told again, or otherwise. -/
  stands : ∀ i x, s.exchange i = some x →
    x.Stands ∧ (x.mailbox = .abandoned → .leave i ∈ acts) ∧
    ∀ more, ∃ y, (s.run more).exchange i = some y ∧ x.Keeps y
  overtakes : ∀ i x failure reader, s.exchange i = some x → x.channel.outcome = .failed failure →
    (x.pull reader).1 = .fail failure
  cancels : ∀ i x cause, s.exchange i = some x → x.isFinished = false →
    (x.cancel cause s.hub).1.stage = .finished ∧
    { x with connection := x.connection.map Handle.detached }.cancel cause s.hub =
      x.cancel cause s.hub
  /-- Each connection that an exchange acquired it has given back or closed once, as soon as it has
  it no longer. It gives one back only after a complete response. -/
  ledger : ∀ i n, let deeds := origin.ledger i acts
    deeds.count (.released n) + deeds.count (.discarded n) +
      (if s.number? i = some n then 1 else 0) = deeds.count (.acquired n) ∧
    deeds.count (.acquired n) ≤ 1 ∧
    (.released n ∈ deeds →
      ∃ x, s.exchange i = some x ∧ x.stage = .finished ∧ x.channel.outcome = .complete)
  inUse : ∀ n, n ∈ s.hub.pool.inUse ↔ ∃ i, s.number? i = some n
  freed : ∀ a i x y n, s.exchange i = some x → x.stage ≠ .finished →
    (s.apply a).exchange i = some y → y.stage = .finished →
    .acquired n ∈ origin.ledger i (acts ++ [a]) → n ∉ (s.apply a).hub.pool.inUse

/-- In every run an exchange comes to one result, and no connection of it is lost. -/
theorem resolves_once (proxies : Proxies) (config : PoolConfig) (acts : List Act) :
    Resolves (Traffic.new proxies config) acts ((Traffic.new proxies config).run acts) := by
  have h : Settled (.new proxies config) ((Traffic.new proxies config).run acts)
      fun i => (Traffic.new proxies config).ledger i acts := by
    simpa only [List.nil_append] using (Settled.new proxies config).run acts
  refine ⟨fun a i m x result act hx push => ?_, fun a i m x failure act hx fault => ?_,
    fun i x quota hx => h.orderly.step_eq_none_iff hx quota,
    fun i x quotas hx => exists_rest h.orderly hx quotas,
    fun i x hx => ⟨h.stands i x hx, fun hm => ?_, fun more => keeps_run h more hx⟩,
    fun i x failure reader _ hf => Reader.pull_of_failed hf reader,
    fun i x cause _ hx => ⟨x.finished_cancel cause _, x.cancel_detached cause _ hx⟩,
    fun i n => ?_, h.inUse, fun a i x y n hx running hy finished hn => ?_⟩
  · have hs := h.orderly.sound i x hx
    have hawaited := (h.stands i x hx).awaited (Exchange.unfinished_of_push push)
    have runs := Exchange.runs_of_push hs.wired (fun _ => hawaited.running) push
    have same := apply_of_push act hx push
    rw [deeds_of_put act hx same, same]
    exact ⟨by simp only [put, Function.update_self], by rw [Function.update_self]; exact runs⟩
  · obtain ⟨result, push, fails⟩ := Exchange.fails_of_faults fault
    have hawaited := (h.stands i x hx).awaited (Exchange.unfinished_of_push push)
    have same := apply_of_push act hx push
    rw [deeds_of_put act hx same, same, Function.update_self]
    exact ⟨result.1, by simp only [put, Function.update_self], fails,
      fails.outcome hawaited.outcome⟩
  · rcases left_of_abandoned (Settled.new proxies config) acts hx hm with ⟨y, hy, -⟩ | hmem
    · cases hy
    · exact hmem
  · have hcount := (h.kept i).count n
    exact ⟨hcount.1, hcount.2, h.released i n⟩
  · rw [ledger_append] at hn
    exact not_inUse_of_end h a hx hy running finished (by simpa [ledger] using hn)

end Traffic
end HttpClient
