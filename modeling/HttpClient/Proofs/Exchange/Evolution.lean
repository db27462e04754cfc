import Mathlib.Logic.Relation
import HttpClient.Proofs.Exchange.Failures
import HttpClient.Proofs.Exchange.Projection
set_option autoImplicit false

/-!
What holds of an exchange from its beginning to its end, whatever happens around it: the hub can be
another one at every push.
-/

namespace HttpClient
namespace Exchange

section Proper

variable {x y : Exchange} {m : Push} {hub : Hub} {f : Failure}

/-- What holds of an exchange at any time, whatever becomes of the hub. -/
structure Proper (x : Exchange) : Prop where
  unconnected : (x.stage = .dispatched ∨ ∃ plan a, x.stage = .acquiring plan a) →
    x.connection = none
  writes : x.Writes
  stands : x.Stands
  failed : ∀ f, x.channel.outcome = .failed f → f.kind ≠ .tooManyRedirects

theorem proper_new (number : Nat) (request : Request) (options : ClientOptions)
    (defaults : Fields) : (new number request options defaults).Proper :=
  ⟨fun _ => rfl, writes_new _ _ _ _, stands_new _ _ _ _, fun _ h => by cases h⟩

theorem Proper.call (h : x.Proper) (called : x.Called y) : y.Proper where
  unconnected hs := called.stays.connection.trans (h.unconnected (called.stage ▸ hs))
  writes := h.writes.call called.stage
  stands := called.stands h.stands
  failed f hf := h.failed f (called.outcome ▸ hf)

section Pushes

variable {result : Exchange × Hub}

theorem Proper.runs (h : x.Proper) (push : x.push m hub = some result) : x.Runs m hub result :=
  runs_of_push (fun plan a hs => h.unconnected (.inr ⟨plan, a, hs⟩))
    (fun hs => (h.stands.awaited hs).running) push

theorem Proper.faults (h : x.Proper) (push : x.push m hub = some result)
    (hf : result.1.channel.outcome = .failed f) : x.Faults hub m f := by
  have hpending := (h.stands.awaited (unfinished_of_push push)).outcome
  have hcourse := h.runs push
  unfold Runs at hcourse
  generalize x.deeds m result.1 = deeds at hcourse
  cases hcourse with
  | continues running quiet => simp [quiet.outcome, hpending] at hf
  | acquires stage step running connection quiet => simp [quiet.outcome, hpending] at hf
  | answers stage feed made waiting mailbox running channel => simp [channel, hpending] at hf
  | retries stage first nothing headSeen touched letsGo next retried connection quiet =>
    simp [quiet.outcome, hpending] at hf
  | completes stage feed letsGo finished connection mailbox channel =>
    simp [channel, Channel.complete, Channel.outcome_of_pending hpending] at hf
  | fails fault ended =>
    rw [ended.channel, Channel.fail, Channel.outcome_of_pending hpending] at hf
    cases hf
    exact fault
  | abandons gone letsGo finished connection quiet => simp [quiet.outcome, hpending] at hf

theorem unconnected_of_push (h : x.Proper) (push : x.push m hub = some result)
    (hs : ∃ plan a, result.1.stage = .acquiring plan a) : result.1.connection = none := by
  obtain ⟨plan, a, hs⟩ := hs
  cases (goes_of_push push).2 with
  | planned stage made next connection => exact connection.trans (h.unconnected (.inl stage))
  | acquiring stage step next stays =>
    exact stays.connection.trans (h.unconnected (.inr ⟨_, _, stage⟩))
  | retried stage touched like next connection => exact connection
  | quit touched quits => exact quits.connection
  | unacquired stage step quits => exact quits.connection
  | returned completes stage connection => exact connection
  | acquired stage step next => rcases next with next | next <;> simp [next] at hs
  | secured stage connection carries next => simp [next] at hs
  | wrote stage writes found write next => simp [next] at hs
  | written stage writes failure next => simp [next] at hs
  | read stage found read next => simp [next] at hs
  | parsed stage feed next => rcases next with next | next | ⟨piece, next⟩ <;> simp [next] at hs
  | offered stage next => simp [next] at hs

theorem dispatched_of_push (push : x.push m hub = some result) : result.1.stage ≠ .dispatched := by
  cases (goes_of_push push).2 with
  | acquired stage step next => rcases next with next | next <;> simp [next]
  | parsed stage feed next => rcases next with next | next | ⟨piece, next⟩ <;> simp [next]
  | quit touched quits => simp [quits.stage]
  | unacquired stage step quits => simp [quits.stage]
  | returned completes stage => simp [stage]
  | planned stage made next => simp [next]
  | acquiring stage step next => simp [next]
  | secured stage connection carries next => simp [next]
  | wrote stage writes found write next => simp [next]
  | written stage writes failure next => simp [next]
  | read stage found read next => simp [next]
  | retried stage touched like next => simp [next]
  | offered stage next => simp [next]

theorem Proper.push (h : x.Proper) (push : x.push m hub = some result) : result.1.Proper where
  unconnected hs :=
    unconnected_of_push h push (hs.resolve_left (dispatched_of_push push))
  writes := h.writes.push push
  stands := (h.runs push).stands (h.stands.awaited (unfinished_of_push push))
  failed _ hf := ((h.faults push hf).kind h.writes).1

end Pushes

theorem Proper.kind_of_mailbox (h : x.Proper) (hf : x.mailbox = .filled (.error f)) :
    f.kind ≠ .tooManyRedirects := by
  by_cases hs : x.stage = .finished
  · exact h.failed f ((h.stands.resolved hs).failed f hf)
  · rcases (h.stands.awaited hs).mailbox with he | he | ⟨a, he⟩ <;> simp [hf] at he

theorem Proper.filled (h : x.Proper) (hs : x.stage = .finished) (hm : x.mailbox ≠ .abandoned) :
    ∃ result, x.mailbox = .filled result := by
  cases he : x.mailbox with
  | empty => exact absurd he (h.stands.resolved hs).told
  | abandoned => exact absurd he hm
  | filled result => exact ⟨result, rfl⟩

end Proper

inductive Pushes (x : Exchange) : Exchange → Prop where
  | push {m : Push} {hub : Hub} {result : Exchange × Hub} (push : x.push m hub = some result) :
      Pushes x result.1

inductive Moves (x : Exchange) : Exchange → Prop where
  | push {y : Exchange} (push : x.Pushes y) : Moves x y
  | call {y : Exchange} (called : x.Called y) : Moves x y

def Proceeds : Exchange → Exchange → Prop := Relation.ReflTransGen Pushes

def Evolves : Exchange → Exchange → Prop := Relation.ReflTransGen Moves

section Evolves

variable {x y : Exchange}

theorem Moves.asks (h : x.Moves y) : x.Asks y := by
  cases h with
  | push push =>
    cases push with
    | push push => exact (goes_of_push push).1
  | call called => exact called.asks

theorem Pushes.proper (h : x.Pushes y) (hx : x.Proper) : y.Proper := by
  cases h with
  | push push => exact hx.push push

theorem Moves.proper (h : x.Moves y) (hx : x.Proper) : y.Proper := by
  cases h with
  | push push => exact push.proper hx
  | call called => exact hx.call called

theorem Moves.keeps (h : x.Moves y) (hx : x.Proper) : x.Keeps y := by
  cases h with
  | push push =>
    cases push with
    | push push => exact (hx.runs push).keeps
  | call called => exact called.keeps

theorem Evolves.asks (h : x.Evolves y) : x.Asks y := by
  induction h with
  | refl => exact .refl x
  | tail _ move ih => exact ih.trans move.asks

theorem Evolves.proper (h : x.Evolves y) (hx : x.Proper) : y.Proper := by
  induction h with
  | refl => exact hx
  | tail _ move ih => exact move.proper ih

theorem Evolves.keeps (h : x.Evolves y) (hx : x.Proper) : x.Keeps y := by
  induction h with
  | refl => exact .refl x
  | tail evolves move ih => exact ih.trans (move.keeps (Evolves.proper evolves hx))

theorem Proceeds.evolves (h : x.Proceeds y) : x.Evolves y := by
  induction h with
  | refl => exact .refl
  | tail _ push ih => exact .tail ih (.push push)

theorem Proceeds.finished (h : x.Proceeds y) (hx : x.stage = .finished) : y.stage = .finished := by
  induction h with
  | refl => exact hx
  | tail _ push ih =>
    cases push with
    | push push => exact absurd ih (unfinished_of_push push)

theorem Proceeds.abandoned (h : x.Proceeds y) (hx : x.Proper) (hy : y.mailbox = .abandoned) :
    x.mailbox = .abandoned := by
  induction h with
  | refl => exact hy
  | tail proceeds push ih =>
    cases push with
    | push push =>
      have proper := (Proceeds.evolves proceeds).proper hx
      exact ih ((proper.runs push).abandoned hy)

theorem proceeds_step {quota : Nat} {hub : Hub} {result : Exchange × Hub}
    (h : x.step quota hub = some result) : x.Proceeds result.1 :=
  .single (.push (m := .go quota) h)

theorem proceeds_cancel (x : Exchange) (cause : Cause) (hub : Hub) :
    x.Proceeds (x.cancel cause hub).1 := by
  cases hf : x.isFinished with
  | true => simpa only [cancel, hf] using .refl
  | false =>
    have hpush : x.push (.cancel cause) hub = some (x.cancel cause hub) := by simp [push, hf]
    exact .single (.push hpush)

theorem evolves_leave (x : Exchange) : x.Evolves x.leave := .single (.call x.called_leave)

theorem evolves_pull (x : Exchange) (r : Reader) : x.Evolves (x.pull r).2.2 :=
  .single (.call (x.called_pull r))

theorem evolves_apply (x : Exchange) (act : Act) : x.Evolves (x.apply act) := by
  cases act with
  | push m hub =>
    simp only [apply]
    cases push : x.push m hub with
    | none => exact .refl
    | some result => exact .single (.push (.push push))
  | leave => exact x.evolves_leave
  | pull reader => exact x.evolves_pull reader

theorem evolves_run (x : Exchange) (acts : List Act) : x.Evolves (x.run acts) := by
  induction acts generalizing x with
  | nil => exact .refl
  | cons act acts ih => exact .trans (x.evolves_apply act) (ih (x.apply act))

end Evolves

end Exchange

/-- In a run every exchange becomes what it is from its beginning. -/
theorem Traffic.exists_evolves {i : Nat} {x : Exchange} (proxies : Proxies) (config : PoolConfig)
    (acts : List Act) (hx : ((Traffic.new proxies config).run acts).exchange i = some x) :
    ∃ request options defaults, (Exchange.new i request options defaults).Evolves x := by
  obtain ⟨request, options, defaults, own, rfl, -⟩ := exists_own proxies config hx
  exact ⟨request, options, defaults, Exchange.evolves_run _ own⟩

end HttpClient
