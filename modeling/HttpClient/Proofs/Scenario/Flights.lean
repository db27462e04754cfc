import Mathlib.Data.Finset.Card
import HttpClient.Proofs.Exchange.Evolution
import HttpClient.Scenario.Transfers
set_option autoImplicit false

/-!
Whatever a client does, the exchanges it has begun only go on: none is lost, none is another one's,
and a new one comes with each request that is dispatched. Whoever waits for one is told by it.
-/

namespace HttpClient

theorem Reader.source_finish (r : Reader) : r.finish.2.source = r.source := by
  unfold finish
  split <;> rfl

theorem Reader.source_take (r : Reader) (c : Channel) (pieces : List Bytes) :
    (r.take c pieces).2.1.source = r.source := by
  induction pieces generalizing r with
  | nil =>
    unfold take
    dsimp only
    split
    · rfl
    · split
      · exact source_finish _
      · rfl
      · rfl
  | cons piece rest ih =>
    unfold take
    split
    · rfl
    · exact ih _
    · rfl

theorem Reader.source_pull (r : Reader) (c : Channel) : (r.pull c).2.1.source = r.source := by
  unfold pull
  repeat' split
  · rfl
  · rfl
  · exact r.source_take c c.queue
  · next pull r' hr => exact (congrArg (·.2.source) hr).symm.trans r.source_finish

namespace Scenario.Scene

def requests (s : Scene) : List Request := s.flights.map (·.exchange.request)

/-- The same exchanges, each of them some steps further on. -/
structure Along (step : Exchange → Exchange → Prop) (s t : Scene) : Prop where
  length : t.flights.length = s.flights.length
  flights : ∀ n x, s.flight? n = some x →
    ∃ y, t.flight? n = some y ∧ Relation.ReflTransGen step x y

abbrev Goes : Scene → Scene → Prop := Along Exchange.Moves

abbrev Proceeds : Scene → Scene → Prop := Along Exchange.Pushes

section Along

variable {step : Exchange → Exchange → Prop} {s t u : Scene} {n : Nat}

theorem along_of_flights (h : t.flights = s.flights) : Along step s t :=
  ⟨by rw [h], fun n x hx => ⟨x, by rwa [flight?, h], .refl⟩⟩

theorem Along.refl (s : Scene) : Along step s s := along_of_flights rfl

theorem Along.trans (h : Along step s t) (h' : Along step t u) : Along step s u := by
  refine ⟨h'.length.trans h.length, fun n x hx => ?_⟩
  obtain ⟨y, hy, hxy⟩ := h.flights n x hx
  obtain ⟨z, hz, hyz⟩ := h'.flights n y hy
  exact ⟨z, hz, hxy.trans hyz⟩

theorem along_setExchange {y : Exchange}
    (own : ∀ x, s.flight? n = some x → Relation.ReflTransGen step x y) :
    Along step s (s.setExchange n y) := by
  refine ⟨List.length_modify .., fun m x hx => ?_⟩
  by_cases hm : n = m
  · subst hm
    obtain ⟨f, hf, rfl⟩ := Option.map_eq_some_iff.1 hx
    exact ⟨y, by simp [flight?, setExchange, hf], own _ hx⟩
  · exact ⟨x, by simpa [flight?, setExchange, List.getElem?_modify, hm] using hx, .refl⟩

theorem along_foldl {α : Type} {act : Scene → α → Scene} (hact : ∀ s a, Along step s (act s a))
    (s : Scene) (as : List α) : Along step s (as.foldl act s) := by
  induction as generalizing s with
  | nil => exact .refl s
  | cons a as ih => exact (hact s a).trans (ih _)

theorem Along.goes (h : s.Proceeds t) : s.Goes t := by
  refine ⟨h.length, fun n x hx => ?_⟩
  obtain ⟨y, hy, proceeds⟩ := h.flights n x hx
  exact ⟨y, hy, Exchange.Proceeds.evolves proceeds⟩

theorem Along.requests (h : s.Goes t) : t.requests = s.requests := by
  refine List.ext_getElem? fun n => ?_
  simp only [Scene.requests, List.getElem?_map]
  cases hs : s.flights[n]? with
  | none =>
    rw [List.getElem?_eq_none_iff] at hs
    rw [List.getElem?_eq_none (h.length ▸ hs)]
  | some f =>
    obtain ⟨y, hy, evolves⟩ := h.flights n f.exchange (by simp [flight?, hs])
    obtain ⟨g, hg, rfl⟩ := Option.map_eq_some_iff.1 hy
    simp [hg, (Exchange.Evolves.asks evolves).request]

end Along

section Waiting

variable {s t u : Scene} {n : Nat}

theorem proceed_stepFirst {hub hub' : Hub} {fs gs : List Flight}
    (h : stepFirst hub fs = some (gs, hub')) : gs.length = fs.length ∧
      ∀ (n : Nat) (x : Exchange), (fs[n]?).map Flight.exchange = some x →
        ∃ y, (gs[n]?).map Flight.exchange = some y ∧ x.Proceeds y := by
  induction fs generalizing gs with
  | nil => cases h
  | cons f fs ih =>
    simp only [stepFirst] at h
    split at h
    · next x hub₁ hstep =>
      cases h
      refine ⟨rfl, fun n y hy => ?_⟩
      cases n with
      | zero =>
        cases hy
        exact ⟨x, rfl, Exchange.proceeds_step hstep⟩
      | succ n => exact ⟨y, hy, .refl⟩
    · obtain ⟨⟨gs', hub₁⟩, hgs, hrest⟩ := Option.map_eq_some_iff.1 h
      cases hrest
      obtain ⟨hlength, hflights⟩ := ih hgs
      refine ⟨congrArg (· + 1) hlength, fun n y hy => ?_⟩
      cases n with
      | zero => exact ⟨y, hy, .refl⟩
      | succ n => exact hflights n y hy

theorem proceeds_move (h : s.move = some t) : s.Proceeds t := by
  unfold move at h
  split at h
  · next fs hub hstep =>
    cases h
    obtain ⟨hlength, hflights⟩ := proceed_stepFirst hstep
    exact ⟨hlength, hflights⟩
  · obtain ⟨w, -, rfl⟩ := Option.map_eq_some_iff.1 h
    exact along_of_flights rfl

theorem proceeds_settle (s : Scene) : s.Proceeds s.settle := by
  unfold settle
  generalize 8 * (s.world.work + s.load + 1) = fuel
  induction fuel generalizing s with
  | zero => exact .refl s
  | succ fuel ih =>
    unfold moveAll
    split
    · next t ht => exact (proceeds_move ht).trans (ih t)
    · exact .refl s

theorem proceeds_cancelOne (s : Scene) (n : Nat) (cause : Cause) :
    s.Proceeds (s.cancelOne n cause) := by
  unfold cancelOne
  split
  · exact .refl s
  · next x hx =>
    refine Along.trans (t := s.setHub (x.cancel cause s.world.hub).2) (along_of_flights rfl)
      (along_setExchange fun y hy => ?_)
    have hxy : x = y := Option.some.inj (hx.symm.trans hy)
    exact hxy ▸ x.proceeds_cancel cause _

theorem proceeds_passTo (s : Scene) (moment : Nat) : s.Proceeds (s.passTo moment) := by
  unfold passTo
  refine Along.trans ?_ (along_foldl (fun s f => proceeds_cancelOne s _ _) _ _)
  exact along_of_flights rfl

theorem proceeds_lapse (s : Scene) (n : Nat) : s.Proceeds (s.lapse n) := by
  unfold lapse
  split
  · exact Along.trans (t := { s with interruption := .before .cancelled }) (along_of_flights rfl)
      (proceeds_cancelOne _ n _)
  · exact proceeds_passTo s _
  · exact proceeds_cancelOne s n _

def unfinished (s : Scene) : Finset Nat :=
  (Finset.range s.flights.length).filter fun n => ∃ x, s.flight? n = some x ∧ x.isFinished = false

theorem mem_unfinished :
    n ∈ s.unfinished ↔ ∃ x, s.flight? n = some x ∧ x.isFinished = false := by
  rw [unfinished, Finset.mem_filter, Finset.mem_range]
  refine ⟨And.right, fun h => ⟨?_, h⟩⟩
  obtain ⟨x, hx, -⟩ := h
  obtain ⟨f, hf, -⟩ := Option.map_eq_some_iff.1 hx
  exact (List.getElem?_eq_some_iff.1 hf).1

theorem card_unfinished_le (s : Scene) : s.unfinished.card ≤ s.flights.length :=
  (Finset.card_filter_le _ _).trans_eq (Finset.card_range _)

theorem Along.unfinished_subset (h : s.Proceeds t) : t.unfinished ⊆ s.unfinished := by
  intro n hn
  obtain ⟨y, hy, hs⟩ := mem_unfinished.1 hn
  obtain ⟨f, hf, rfl⟩ := Option.map_eq_some_iff.1 hy
  have hbefore : n < s.flights.length := h.length ▸ (List.getElem?_eq_some_iff.1 hf).1
  have hx : s.flight? n = some s.flights[n].exchange := by simp [flight?, hbefore]
  obtain ⟨z, hz, proceeds⟩ := h.flights n _ hx
  have hyz : f.exchange = z := Option.some.inj (hy.symm.trans hz)
  refine mem_unfinished.2 ⟨_, hx, Bool.eq_false_iff.2 fun hx => ?_⟩
  have hfinished := Exchange.Proceeds.finished proceeds ((Exchange.isFinished_iff _).1 hx)
  exact Bool.eq_false_iff.1 hs (hyz ▸ (Exchange.isFinished_iff _).2 hfinished)

theorem not_unfinished_cancelOne (s : Scene) (n : Nat) (cause : Cause) :
    n ∉ (s.cancelOne n cause).unfinished := by
  intro hn
  obtain ⟨y, hy, hs⟩ := mem_unfinished.1 hn
  unfold cancelOne at hy
  split at hy
  · next hx => simp [hx] at hy
  · next x hx =>
    obtain ⟨f, hf, -⟩ := Option.map_eq_some_iff.1 hx
    have hxy : (x.cancel cause s.world.hub).1 = y := by
      simpa [setExchange, flight?, setHub, hf] using hy
    exact Bool.eq_false_iff.1 hs (hxy ▸ (Exchange.isFinished_iff _).2 (x.finished_cancel cause _))

theorem not_unfinished_foldl {α : Type} {act : Scene → α → Scene} {a : α} {as : List α}
    (hact : ∀ s a, Proceeds s (act s a)) (ha : a ∈ as) (hn : ∀ s, n ∉ (act s a).unfinished)
    (s : Scene) : n ∉ (as.foldl act s).unfinished := by
  obtain ⟨sooner, later, rfl⟩ := List.append_of_mem ha
  rw [List.foldl_append, List.foldl_cons]
  exact fun h => hn _ ((along_foldl hact _ later).unfinished_subset h)

theorem not_unfinished_passTo {f : Flight} {moment : Nat} (hf : s.flights[n]? = some f)
    (due : f.deadline = some moment) : n ∉ (s.passTo moment).unfinished := by
  unfold passTo
  refine not_unfinished_foldl (a := (f, n)) ?_ ?_ ?_ _
  · exact fun s f => proceeds_cancelOne s _ _
  · rw [List.mem_filter, List.mem_zipIdx_iff_getElem?]
    exact ⟨hf, by simp [due]⟩
  · exact fun s => not_unfinished_cancelOne s n _

theorem card_lapse (h : n ∈ s.unfinished) : (s.lapse n).unfinished.card < s.unfinished.card := by
  have hone : ∃ m ∈ s.unfinished, m ∉ (s.lapse n).unfinished := by
    unfold lapse
    split
    · exact ⟨n, h, not_unfinished_cancelOne _ n _⟩
    · next moment hmoment _ =>
      obtain ⟨f, hf, due⟩ := List.mem_filterMap.1 (List.min?_mem hmoment)
      obtain ⟨hf, hrunning⟩ := List.mem_filter.1 hf
      obtain ⟨m, hm⟩ := List.mem_iff_getElem?.1 hf
      exact ⟨m, mem_unfinished.2 ⟨f.exchange, by simp [flight?, hm], by simpa using hrunning⟩,
        not_unfinished_passTo hm due⟩
    · exact ⟨n, h, not_unfinished_cancelOne _ n _⟩
  exact Finset.card_lt_card
    ((Finset.ssubset_iff_of_subset (proceeds_lapse s n).unfinished_subset).2 hone)

def Tended (s : Scene) (n : Nat) : Prop :=
  ∃ x, s.flight? n = some x ∧ x.Proper ∧ x.mailbox ≠ .abandoned

theorem Along.tended (h : s.Proceeds t) (hs : s.Tended n) : t.Tended n := by
  obtain ⟨x, hx, proper, stays⟩ := hs
  obtain ⟨y, hy, proceeds⟩ := h.flights n x hx
  exact ⟨y, hy, (Exchange.Proceeds.evolves proceeds).proper proper,
    fun left => stays (Exchange.Proceeds.abandoned proceeds proper left)⟩

def Answered (s : Scene) (n : Nat) (result : Except Failure Answer) : Prop :=
  ∃ x, s.flight? n = some x ∧ x.Proper ∧ x.mailbox = .filled result

theorem Along.answered {result : Except Failure Answer} (h : s.Goes t)
    (hs : s.Answered n result) : t.Answered n result := by
  obtain ⟨x, hx, proper, told⟩ := hs
  obtain ⟨y, hy, evolves⟩ := h.flights n x hx
  have keeps := Exchange.Evolves.keeps evolves proper
  exact ⟨y, hy, Exchange.Evolves.proper evolves proper,
    (keeps.mailbox (by simp [told])).trans told⟩

theorem proceeds_awaitWithin {fuel : Nat} (tended : s.Tended n)
    (enough : s.unfinished.card < fuel) :
    s.Proceeds (awaitWithin n fuel s).2 ∧
      (awaitWithin n fuel s).2.Answered n (awaitWithin n fuel s).1 := by
  induction fuel generalizing s with
  | zero => exact absurd enough (Nat.not_lt_zero _)
  | succ fuel ih =>
    have hsettle := proceeds_settle s
    obtain ⟨x, hx, proper, stays⟩ := hsettle.tended tended
    unfold awaitWithin
    simp only [hx]
    split
    · next result hm => exact ⟨hsettle, x, hx, proper, hm⟩
    · next hm =>
      have running : n ∈ s.settle.unfinished := by
        refine mem_unfinished.2 ⟨x, hx, Bool.eq_false_iff.2 fun hf => ?_⟩
        obtain ⟨result, told⟩ := proper.filled ((Exchange.isFinished_iff x).1 hf) stays
        exact hm result told
      -- One exchange fewer goes on, so the rounds that are left are enough for the others.
      have fewer := card_lapse running
      have settled := Finset.card_le_card hsettle.unfinished_subset
      have hlapse := hsettle.trans (proceeds_lapse s.settle n)
      obtain ⟨hmore, hresult⟩ := ih (hlapse.tended tended) (by omega)
      exact ⟨hlapse.trans hmore, hresult⟩

end Waiting

section Reading

variable {s t : Scene} {n : Nat}

theorem goes_settle (s : Scene) : s.Goes s.settle := (proceeds_settle s).goes

theorem goes_leave (s : Scene) (n : Nat) : s.Goes (s.leave n) := by
  unfold leave
  split
  · exact .refl s
  · next x hx =>
    refine along_setExchange fun y hy => ?_
    have hxy : x = y := Option.some.inj (hx.symm.trans hy)
    exact hxy ▸ x.evolves_leave

theorem goes_pullWithin (fuel : Nat) (r : Reader) (s : Scene) :
    s.Goes (pullWithin fuel r s).2.2 := by
  induction fuel generalizing r s with
  | zero => exact .refl s
  | succ fuel ih =>
    unfold pullWithin
    split
    · exact .refl s
    · next x hx =>
      have hpulled : s.Goes (s.setExchange (x.pull r).2.1.source (x.pull r).2.2) := by
        rw [Exchange.pull, Reader.source_pull]
        refine along_setExchange fun z hz => ?_
        have hxz : x = z := Option.some.inj (hx.symm.trans hz)
        exact hxz ▸ x.evolves_pull r
      split
      · next r' y hy =>
        rw [hy] at hpulled
        dsimp only
        split
        · next t ht =>
          exact ((hpulled.trans (proceeds_move ht).goes).trans (goes_settle t)).trans (ih r' _)
        · exact (hpulled.trans (proceeds_lapse _ _).goes).trans (ih r' _)
      · next pull r' y hne hy =>
        rw [hy] at hpulled
        exact hpulled

theorem goes_readWithin (fuel : Nat) (r : Reader) (pieces : List Bytes) (s : Scene) :
    s.Goes (readWithin fuel r pieces s).2.2 := by
  induction fuel generalizing r pieces s with
  | zero => exact .refl s
  | succ fuel ih =>
    have hpull := goes_pullWithin s.effort r s
    unfold readWithin pull
    rcases hp : pullWithin s.effort r s with ⟨_ | piece | _ | failure, r', t⟩ <;>
      rw [hp] at hpull
    · exact hpull
    · exact hpull.trans (ih r' _ t)
    · exact hpull
    · exact hpull

theorem goes_drain (a : Answer) (s : Scene) : s.Goes (drain a s) := by
  have hread := goes_readWithin s.settle.effort a.reader [] s.settle
  unfold drain read
  exact (((goes_settle s).trans hread).trans (goes_leave _ _)).trans (goes_settle _)

def begun (o : ClientOptions) (defaults : Fields) (r : Request) (s : Scene) : Scene :=
  { s with flights := s.flights ++
    [⟨.new s.flights.length r o defaults, o.timeout.map (s.world.hub.now + ·)⟩] }

variable {o : ClientOptions} {defaults : Fields} {r : Request}

theorem flight?_begun_self :
    (s.begun o defaults r).flight? s.flights.length =
      some (.new s.flights.length r o defaults) := by
  simp [begun, flight?]

theorem answered_begun {result : Except Failure Answer} (h : s.Answered n result) :
    (s.begun o defaults r).Answered n result := by
  obtain ⟨x, hx, told⟩ := h
  obtain ⟨f, hf, rfl⟩ := Option.map_eq_some_iff.1 hx
  have hn : n < s.flights.length := (List.getElem?_eq_some_iff.1 hf).1
  exact ⟨f.exchange, by simp [begun, flight?, List.getElem?_append_left hn, hf], told⟩

theorem requests_begun : (s.begun o defaults r).requests = s.requests ++ [r] := by
  simp [begun, requests, Exchange.new]

theorem proceeds_dispatch (o : ClientOptions) (defaults : Fields) (r : Request) (s : Scene) :
    (s.begun o defaults r).Proceeds (dispatch o defaults r s).2 ∧
      (dispatch o defaults r s).2.Answered s.flights.length (dispatch o defaults r s).1 := by
  have tended : (s.begun o defaults r).Tended s.flights.length :=
    ⟨_, flight?_begun_self, Exchange.proper_new .., by simp [Exchange.new]⟩
  have hawait {t : Scene} (hproceeds : (s.begun o defaults r).Proceeds t) :
      (s.begun o defaults r).Proceeds (t.await s.flights.length).2 ∧
        (t.await s.flights.length).2.Answered s.flights.length (t.await s.flights.length).1 := by
    have hcard := t.card_unfinished_le
    obtain ⟨hmore, hresult⟩ := proceeds_awaitWithin (hproceeds.tended tended)
      (show t.unfinished.card < t.flights.length + 2 by omega)
    exact ⟨hproceeds.trans hmore, hresult⟩
  unfold dispatch
  dsimp only
  split
  · exact hawait (proceeds_cancelOne _ _ _)
  · exact hawait (.refl _)

end Reading

end Scenario.Scene
end HttpClient
