import HttpClient.Proofs.Exchange.Courses
set_option autoImplicit false

/-!
How an exchange stands with its caller and with the pool. The caller is told one thing: an answer,
or the failure before it; what fails later reaches the body. The pool gets each connection back
once.
-/

namespace HttpClient

theorem Channel.outcome_of_pending {c : Channel} (h : c.outcome = .pending) (outcome : Outcome) :
    (c.resolve outcome).outcome = outcome := by
  simp only [resolve, h]

theorem Reader.queue_of_take (r : Reader) (c : Channel) (pieces : List Bytes) :
    ∃ queue, (r.take c pieces).2.2 = { c with queue := queue } := by
  induction pieces generalizing r with
  | nil =>
    refine ⟨[], ?_⟩
    simp only [take]
    repeat' split
    all_goals rfl
  | cons piece rest ih =>
    simp only [take]
    split
    · exact ⟨rest, rfl⟩
    · exact ih _
    · exact ⟨rest, rfl⟩

theorem Reader.queue_of_pull (r : Reader) (c : Channel) :
    ∃ queue, (r.pull c).2.2 = { c with queue := queue } := by
  unfold pull
  repeat' split
  · exact ⟨c.queue, rfl⟩
  · exact ⟨c.queue, rfl⟩
  · exact r.queue_of_take c c.queue
  · exact ⟨c.queue, rfl⟩

theorem Reader.pull_of_failed {c : Channel} {failure : Failure}
    (h : c.outcome = .failed failure) (r : Reader) : (r.pull c).1 = .fail failure := by
  simp only [pull, Channel.failure?, h]

namespace Exchange

/-- An exchange that goes on. The caller has the answer exactly if its head has come, and knows of
no end of the body. -/
structure Awaited (x : Exchange) : Prop where
  running : x.Running
  outcome : x.channel.outcome = .pending
  unanswered : x.headSeen = false → x.mailbox = .empty ∨ x.mailbox = .abandoned
  answered : x.headSeen = true → ∃ a, x.mailbox = .filled (.ok a)

/-- An exchange that is over. It has no connection any more, and its caller was told how it went,
unless the caller had left. -/
structure Resolved (x : Exchange) : Prop where
  connection : x.connection = none
  told : x.mailbox ≠ .empty
  failed : ∀ failure, x.mailbox = .filled (.error failure) → x.channel.outcome = .failed failure
  complete : x.channel.outcome = .complete → ∃ a, x.mailbox = .filled (.ok a)
  pending : x.channel.outcome = .pending → x.mailbox = .abandoned ∨ x.channel.receiving = false

structure Stands (x : Exchange) : Prop where
  awaited : x.stage ≠ .finished → x.Awaited
  resolved : x.stage = .finished → x.Resolved

/-- What the caller can do to an exchange: to leave, and to read the body. -/
structure Called (x y : Exchange) : Prop where
  asks : x.Asks y
  stage : y.stage = x.stage
  stays : x.Stays y
  outcome : y.channel.outcome = x.channel.outcome
  receiving : x.channel.receiving = false → y.channel.receiving = false
  mailbox : y.mailbox = x.mailbox ∨ x.mailbox = .empty ∧ y.mailbox = .abandoned

section Caller

variable {x y : Exchange}

theorem called_leave (x : Exchange) : x.Called x.leave := by
  unfold leave
  split
  · next hm => exact ⟨⟨rfl, rfl, rfl⟩, rfl, ⟨rfl, rfl⟩, rfl, id, .inr ⟨hm, rfl⟩⟩
  · exact ⟨⟨rfl, rfl, rfl⟩, rfl, ⟨rfl, rfl⟩, rfl, fun _ => rfl, .inl rfl⟩

theorem called_pull (x : Exchange) (reader : Reader) : x.Called (x.pull reader).2.2 := by
  obtain ⟨queue, hq⟩ := reader.queue_of_pull x.channel
  simp only [pull, hq]
  exact ⟨⟨rfl, rfl, rfl⟩, rfl, ⟨rfl, rfl⟩, rfl, id, .inl rfl⟩

theorem Called.stands (h : x.Called y) (hx : x.Stands) : y.Stands := by
  have hseen : y.headSeen = x.headSeen := by simp only [headSeen, receipt?, h.stage]
  refine ⟨fun hs => ?_, fun hs => ?_⟩
  · have hx := hx.awaited (h.stage ▸ hs)
    refine ⟨⟨hs, fun plan r data ho => ?_⟩, h.outcome.trans hx.outcome, fun hn => ?_, fun hn => ?_⟩
    · exact hseen.trans (hx.running.offers plan r data (h.stage ▸ ho))
    · rcases h.mailbox with hm | ⟨-, hm⟩
      · exact hm ▸ hx.unanswered (hseen ▸ hn)
      · exact .inr hm
    · obtain ⟨a, ha⟩ := hx.answered (hseen ▸ hn)
      rcases h.mailbox with hm | ⟨he, -⟩
      · exact ⟨a, hm.trans ha⟩
      · rw [ha] at he
        cases he
  · have hx := hx.resolved (h.stage ▸ hs)
    have hm : y.mailbox = x.mailbox := by
      rcases h.mailbox with hm | ⟨he, -⟩
      · exact hm
      · exact absurd he hx.told
    refine ⟨h.stays.connection.trans hx.connection, hm ▸ hx.told, ?_, ?_, ?_⟩
    · rw [hm, h.outcome]
      exact hx.failed
    · rw [hm, h.outcome]
      exact hx.complete
    · rw [hm, h.outcome]
      exact fun hp => (hx.pending hp).imp_right h.receiving

theorem stands_new (number : Nat) (request : Request) (options : ClientOptions)
    (defaults : Fields) : (new number request options defaults).Stands where
  awaited _ := ⟨.of_stage (by simp [new]) (by simp [new]), rfl, fun _ => .inl rfl,
    fun h => by cases h⟩
  resolved h := by cases h

end Caller

section Courses

variable {x y : Exchange} {m : Push} {hub hub' : Hub} {deeds : List Deed}

theorem Quiet.awaited (q : x.Quiet y) (hx : x.Awaited) (running : y.Running)
    (hseen : y.headSeen = x.headSeen) : y.Awaited where
  running := running
  outcome := q.outcome.trans hx.outcome
  unanswered h := q.mailbox ▸ hx.unanswered (hseen ▸ h)
  answered h := q.mailbox ▸ hx.answered (hseen ▸ h)

theorem Awaited.mailbox (hx : x.Awaited) :
    x.mailbox = .empty ∨ x.mailbox = .abandoned ∨ ∃ a, x.mailbox = .filled (.ok a) := by
  cases hs : x.headSeen with
  | false => exact (hx.unanswered hs).imp_right .inl
  | true => exact .inr (.inr (hx.answered hs))

theorem stands_of_awaited (h : x.Awaited) : x.Stands :=
  ⟨fun _ => h, fun hs => absurd hs h.running.unfinished⟩

theorem stands_of_resolved (hs : x.stage = .finished) (h : x.Resolved) : x.Stands :=
  ⟨fun hn => absurd hs hn, fun _ => h⟩

theorem Fails.outcome {failure : Failure} (h : x.Fails failure hub y hub' deeds)
    (pending : x.channel.outcome = .pending) : y.channel.outcome = .failed failure := by
  rw [h.channel]
  exact Channel.outcome_of_pending pending _

/-- However an exchange goes on, its caller is told what there is to tell, once. -/
theorem Course.stands (c : x.Course m hub y hub' deeds) (hx : x.Awaited) : y.Stands := by
  cases c with
  | continues running quiet hseen number inUse =>
    exact stands_of_awaited (quiet.awaited hx running hseen)
  | acquires stage step running connection quiet hseen =>
    have hnot : x.headSeen = false := headSeen_of_nothing (by simp [receipt?, stage])
    exact stands_of_awaited (quiet.awaited hx running (hseen.trans hnot.symm))
  | answers stage feed made waiting mailbox running channel hseen number same =>
    refine stands_of_awaited ⟨running, channel ▸ hx.outcome, fun h => ?_, fun _ => ⟨_, mailbox⟩⟩
    rw [hseen] at h
    cases h
  | retries stage first nothing hseen touched letsGo next retried connection quiet =>
    have hnot : y.headSeen = false := headSeen_of_nothing (by simp [receipt?, next])
    exact stands_of_awaited (quiet.awaited hx (.of_stage (by simp [next]) (by simp [next]))
      (hnot.trans hseen.symm))
  | completes stage feed letsGo finished connection mailbox channel =>
    obtain ⟨a, ha⟩ := hx.answered (headSeen_of_event stage feed (by simp)).1
    have houtcome : y.channel.outcome = .complete := by
      rw [channel]
      exact Channel.outcome_of_pending hx.outcome .complete
    refine stands_of_resolved finished ⟨connection, ?_, ?_, fun _ => ⟨a, mailbox.trans ha⟩, ?_⟩
    · simp [mailbox, ha]
    · simp [mailbox, ha]
    · simp [houtcome]
  | @fails failure deeds fault ended =>
    have houtcome := ended.outcome hx.outcome
    refine stands_of_resolved ended.finished
      ⟨ended.connection, ?_, ?_, by simp [houtcome], by simp [houtcome]⟩
    all_goals rcases hx.mailbox with hm | hm | ⟨a, hm⟩
    · simp [ended.waiting hm]
    · simp [ended.answered, hm]
    · simp [ended.answered, hm]
    · simp [ended.waiting hm, houtcome]
    · simp [ended.answered, hm]
    · simp [ended.answered, hm]
  | abandons gone letsGo finished connection quiet =>
    refine stands_of_resolved finished ⟨connection, ?_, ?_, ?_, fun _ => ?_⟩
    · rw [quiet.mailbox]
      rcases gone with ⟨-, hm⟩ | ⟨hseen, -⟩
      · exact hm
      · obtain ⟨a, ha⟩ := hx.answered hseen
        simp [ha]
    · intro failure hm
      rw [quiet.mailbox] at hm
      rcases hx.mailbox with h | h | ⟨a, h⟩ <;> simp [h] at hm
    · simp [quiet.outcome, hx.outcome]
    · rw [quiet.mailbox, quiet.receiving]
      rcases gone with ⟨hseen, hm⟩ | ⟨-, hr⟩
      · exact .inl ((hx.unanswered hseen).resolve_left hm)
      · exact .inr hr

structure Keeps (x y : Exchange) : Prop where
  mailbox : x.mailbox ≠ .empty → y.mailbox = x.mailbox
  outcome : x.channel.outcome ≠ .pending → y.channel.outcome = x.channel.outcome

theorem Keeps.refl (x : Exchange) : x.Keeps x := ⟨fun _ => rfl, fun _ => rfl⟩

theorem Keeps.trans {z : Exchange} (h : x.Keeps y) (h' : y.Keeps z) : x.Keeps z where
  mailbox hm := (h'.mailbox (h.mailbox hm ▸ hm)).trans (h.mailbox hm)
  outcome ho := (h'.outcome (h.outcome ho ▸ ho)).trans (h.outcome ho)

theorem Quiet.keeps (q : x.Quiet y) : x.Keeps y := ⟨fun _ => q.mailbox, fun _ => q.outcome⟩

theorem Called.keeps (h : x.Called y) : x.Keeps y where
  mailbox hm := h.mailbox.resolve_right fun he => hm he.1
  outcome _ := h.outcome

theorem Course.keeps (c : x.Course m hub y hub' deeds) : x.Keeps y := by
  cases c with
  | continues running quiet hseen number inUse => exact quiet.keeps
  | acquires stage step running connection quiet hseen => exact quiet.keeps
  | answers stage feed made waiting mailbox running channel hseen number same =>
    exact ⟨fun hm => absurd waiting hm, fun _ => by rw [channel]⟩
  | retries stage first nothing hseen touched letsGo next retried connection quiet =>
    exact quiet.keeps
  | completes stage feed letsGo finished connection mailbox channel =>
    refine ⟨fun _ => mailbox, fun ho => ?_⟩
    rw [channel]
    exact Channel.outcome_resolve ho
  | fails fault ended =>
    refine ⟨ended.answered, fun ho => ?_⟩
    rw [ended.channel]
    exact Channel.outcome_resolve ho
  | abandons gone letsGo finished connection quiet => exact quiet.keeps

/-- What a push is to the pool: nothing, a connection lent, or one that is back or closed. -/
inductive Books (x : Exchange) (hub : Hub) (y : Exchange) (hub' : Hub) : List Deed → Prop where
  | same (number : y.number? = x.number?) (inUse : hub'.pool.inUse = hub.pool.inUse) :
      Books x hub y hub' []
  | lent {n : Nat} (before : x.number? = none) (after : y.number? = some n)
      (inUse : ∀ k, k ∈ hub'.pool.inUse ↔ k = n ∨ k ∈ hub.pool.inUse) :
      Books x hub y hub' [.acquired n]
  | ended {n : Nat} {deed : Deed} (kind : deed = .released n ∨ deed = .discarded n)
      (before : x.number? = some n) (after : y.number? = none)
      (inUse : ∀ k, k ∈ hub'.pool.inUse ↔ k ∈ hub.pool.inUse ∧ k ≠ n) : Books x hub y hub' [deed]

def Linked (x : Exchange) : Prop := ∀ h, x.connection = some h → h.transport.isSome = true

theorem LetsGo.books {back : Bool} {hub₁ : Hub} (l : x.LetsGo back hub₁ hub' deeds)
    (inUse : hub₁.pool.inUse = hub.pool.inUse) (linked : x.Linked) (hy : y.connection = none) :
    x.Books hub y hub' deeds := by
  have hy : y.number? = none := by simp [number?, hy]
  cases l with
  | nothing connection => exact .same (hy.trans (by simp [number?, connection])) inUse
  | released connection fit =>
    refine .ended (.inl rfl) (by simp [number?, connection]) hy fun k => ?_
    rw [← inUse]
    exact Hub.mem_inUse_release (linked _ connection)
  | discarded connection unfit =>
    refine .ended (.inr rfl) (by simp [number?, connection]) hy fun k => ?_
    rw [← inUse]
    exact Hub.mem_inUse_discard

theorem Touched.inUse_eq (t : x.Touched hub hub') : hub'.pool.inUse = hub.pool.inUse := by
  cases t <;> rfl

theorem Course.books (c : x.Course m hub y hub' deeds) (wired : x.Wired) (linked : x.Linked) :
    x.Books hub y hub' deeds := by
  cases c with
  | continues running quiet hseen number inUse => exact .same number inUse
  | acquires stage step running connection quiet hseen =>
    exact .lent (by simp [number?, wired _ _ stage]) (by simp [number?, connection])
      fun k => Acquisition.mem_inUse_of_done step
  | answers stage feed made waiting mailbox running channel hseen number same =>
    exact .same number (by rw [same])
  | retries stage first nothing hseen touched letsGo next retried connection quiet =>
    exact letsGo.books touched.inUse_eq linked connection
  | completes stage feed letsGo finished connection mailbox channel =>
    exact letsGo.books rfl linked connection
  | fails fault ended =>
    obtain ⟨hub₁, calm, letsGo⟩ := ended.letsGo
    exact letsGo.books calm.inUse linked ended.connection
  | abandons gone letsGo finished connection quiet => exact letsGo.books rfl linked connection

end Courses

end Exchange
end HttpClient
