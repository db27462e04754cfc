import HttpClient.Proofs.Exchange.Evolution
import HttpClient.Proofs.Exchange.WholeBody
import HttpClient.Proofs.Response.BodyBound
set_option autoImplicit false

/-!
What a reader is given of a body that has a bound. A piece that shows a body to be too large is not
passed on and ends the transfer; before it comes, all that was passed on fits.
-/

namespace HttpClient
namespace Exchange

def puts (x y : Exchange) : Bytes := (y.channel.queue.drop x.channel.queue.length).flatten

def bound (x : Exchange) : Nat := x.options.maxBodyBytes

/-- What a push means to the bound. -/
inductive Intake (x : Exchange) (m : Push) (y : Exchange) : Prop where
  | rests (silent : ∀ piece, .chunk piece ∉ x.reports m)
      (queue : y.channel.queue = x.channel.queue) (offered : y.offered = [])
  | takes {r : Receipt} {piece : Bytes} {q : Parser} (receipt : x.receipt? = some r)
      (feed : r.parser.feed (x.feeds m) = (.ok (some (.chunk piece)), q))
      (reports : x.reports m = [.chunk piece]) (fits : q.overLimit = false)
      (channel : y.channel = x.channel) (offered : y.offered = [] ∨ y.offered = piece)
  | refuses {r : Receipt} {piece : Bytes} {q : Parser} (receipt : x.receipt? = some r)
      (feed : r.parser.feed (x.feeds m) = (.ok (some (.chunk piece)), q))
      (reports : x.reports m = [.chunk piece]) (exceeds : q.overLimit = true)
      (finished : y.stage = .finished)
      (channel : y.channel = x.channel.fail (.tooLarge q.limits.bodyBytes))
  | passes {pieces : List Bytes} (reports : x.reports m = [])
      (channel : y.channel = { x.channel with queue := x.channel.queue ++ pieces })
      (given : pieces.flatten = x.offered) (offered : y.offered = [])

section Intakes

variable {x y : Exchange} {m : Push} {hub : Hub} {plan : Plan} {quota : Nat} {r : Receipt}
  {data : Bytes} {q : Parser}

theorem queue_resolve (outcome : Outcome) (c : Channel) : (c.resolve outcome).queue = c.queue := by
  unfold Channel.resolve
  split <;> rfl

theorem intake_fail {failure : Failure} (silent : ∀ piece, .chunk piece ∉ x.reports m)
    (channel : y.channel = x.channel) : x.Intake m (y.fail failure hub).1 := by
  refine .rests silent ?_ (offered_of_finished (quits_fail y failure hub).stage)
  simp only [fail, discardConnection_fst, channel, Channel.fail, queue_resolve]

theorem intake_abandon (silent : ∀ piece, .chunk piece ∉ x.reports m)
    (channel : y.channel = x.channel) : x.Intake m (y.abandon hub).1 := by
  refine .rests silent ?_ (offered_of_finished (quits_abandon y hub).stage)
  simp only [abandon, discardConnection_fst, channel, Channel.abandon]

theorem intake_complete {reusable : Bool} (silent : ∀ piece, .chunk piece ∉ x.reports m) :
    x.Intake m (x.complete reusable hub).1 := by
  unfold complete
  dsimp only
  split <;> exact .rests silent (queue_resolve ..) rfl

theorem intake_before (hs : ∀ plan r data, x.stage ≠ .parsing plan r data)
    (channel : y.channel = x.channel) (offered : y.offered = []) : x.Intake m y :=
  .rests (by simp [reports_of_stage hs]) (by rw [channel]) offered

theorem intake_acquire {a : Acquisition} {result : Exchange × Hub}
    (hs : x.stage = .acquiring plan a) (h : x.acquire plan a hub = some result) :
    x.Intake m result.1 := by
  have hnot : ∀ plan r data, x.stage ≠ .parsing plan r data := by simp [hs]
  unfold acquire at h
  split at h
  · cases h
  · cases h
    exact intake_before hnot rfl rfl
  · cases h
    exact intake_fail (by simp [reports_of_stage hnot]) rfl
  · cases h
    split <;> exact intake_before hnot rfl rfl

theorem intake_secure (hs : x.stage = .securing plan) : x.Intake m (x.secure plan hub).1 := by
  have hnot : ∀ plan r data, x.stage ≠ .parsing plan r data := by simp [hs]
  have hsilent : ∀ piece, .chunk piece ∉ x.reports m := by simp [reports_of_stage hnot]
  unfold secure
  split
  · exact intake_fail hsilent rfl
  · dsimp only
    repeat' split
    · exact intake_before hnot rfl rfl
    · exact intake_before hnot rfl rfl
    · exact intake_fail hsilent rfl
    · exact intake_fail hsilent rfl

theorem intake_write {p : Payload} (hs : x.stage = .writing plan p) :
    x.Intake m (x.write plan p hub).1 := by
  have hnot : ∀ plan r data, x.stage ≠ .parsing plan r data := by simp [hs]
  have hsilent : ∀ piece, .chunk piece ∉ x.reports m := by simp [reports_of_stage hnot]
  unfold write
  split
  · exact intake_fail hsilent rfl
  · exact intake_before hnot rfl rfl
  · split
    · exact intake_fail hsilent rfl
    · split
      · exact intake_fail hsilent rfl
      · exact intake_before hnot rfl rfl

theorem intake_read {result : Exchange × Hub} (hs : x.stage = .reading plan r)
    (h : x.read quota plan r hub = some result) : x.Intake m result.1 := by
  have hnot : ∀ plan r data, x.stage ≠ .parsing plan r data := by simp [hs]
  have hsilent : ∀ piece, .chunk piece ∉ x.reports m := by simp [reports_of_stage hnot]
  unfold read at h
  split at h
  · cases h
    exact intake_fail hsilent rfl
  · split at h
    · cases h
    · cases h
      exact intake_fail hsilent rfl
    · cases h
      unfold receive
      repeat' split
      · refine intake_before hnot ?_ ?_
        all_goals
          rw [retry, discardConnection_fst]
        rfl
      · exact intake_before hnot rfl rfl
      · exact intake_before hnot rfl rfl

theorem intake_answer {head : ResponseHead} {bodiless : Bool}
    (reports : x.reports m = [.head head bodiless]) :
    x.Intake m (x.answer plan r head bodiless hub).1 := by
  have hsilent : ∀ piece, .chunk piece ∉ x.reports m := by simp [reports]
  unfold answer
  dsimp only
  split
  · exact intake_fail hsilent rfl
  · split
    · exact .rests hsilent rfl rfl
    · exact intake_abandon hsilent rfl

theorem intake_takeChunk {piece : Bytes} (hs : x.stage = .parsing plan r data)
    (hf : r.parser.feed data = (.ok (some (.chunk piece)), q)) :
    x.Intake (.go quota) (x.takeChunk plan { r with parser := q } piece hub).1 := by
  have hreports : x.reports (.go quota) = [.chunk piece] := reports_of_feed hs hf
  have hreceipt : x.receipt? = some r := by simp only [receipt?, hs]
  have hfeed : r.parser.feed (x.feeds (.go quota)) = (.ok (some (.chunk piece)), q) := by
    simpa only [feeds, pending, hs] using hf
  unfold takeChunk
  split
  · next hover =>
    refine .refuses hreceipt hfeed hreports hover (quits_fail ..).stage ?_
    simp only [fail, discardConnection_fst]
  · next hfits =>
    have hfits := Bool.eq_false_iff.2 hfits
    split
    · exact .takes hreceipt hfeed hreports hfits rfl (.inl rfl)
    · exact .takes hreceipt hfeed hreports hfits rfl (.inr rfl)

theorem intake_parse (hs : x.stage = .parsing plan r data) :
    x.Intake (.go quota) (x.parse plan r data hub).1 := by
  unfold parse
  rcases hf : r.parser.feed data with ⟨error | _ | ⟨head, bodiless⟩ | piece | trailers, q⟩
  · exact intake_fail (by simp [reports_of_error hs hf]) rfl
  · have hsilent : ∀ piece, .chunk piece ∉ x.reports (.go quota) := by
      simp [reports_of_feed hs hf]
    dsimp only
    split
    · exact intake_fail hsilent rfl
    · exact .rests hsilent rfl rfl
  · exact intake_answer (reports_of_feed hs hf)
  · exact intake_takeChunk hs hf
  · exact intake_complete (by simp [reports_of_feed hs hf])

theorem intake_offer {piece : Bytes} {result : Exchange × Hub}
    (hs : x.stage = .offering plan r piece) (h : x.offer plan r piece hub = some result) :
    x.Intake m result.1 := by
  have hreports := reports_of_stage (x := x) (by simp [hs]) m
  have hoffered : x.offered = piece := by simp only [offered, hs]
  unfold offer at h
  split at h
  · cases h
  · cases h
    exact intake_abandon (by simp [hreports]) rfl
  · next c hsend =>
    cases h
    rcases Channel.sent_cases hsend with ⟨hempty, rfl⟩ | ⟨-, -, rfl⟩
    · have hsame : x.channel = { x.channel with queue := x.channel.queue ++ [] } := by simp
      exact .passes hreports hsame (by simpa [hoffered] using hempty.symm) rfl
    · exact .passes hreports rfl (by simp [hoffered]) rfl

theorem intake_of_push {result : Exchange × Hub} (h : x.push m hub = some result) :
    x.Intake m result.1 := by
  cases m with
  | cancel cause =>
    simp only [push] at h
    split at h
    · cases h
    · next hf =>
      cases h
      rw [isFinished_iff] at hf
      simp only [cancel, x.isFinished_iff, hf, ite_false]
      exact intake_fail (by simp [Exchange.reports]) rfl
  | go quota =>
    simp only [push, step] at h
    cases hs : x.stage with
    | dispatched =>
      simp only [hs, Option.some.injEq] at h
      subst h
      unfold begin
      split
      · exact intake_fail (by simp [reports_of_stage, hs]) rfl
      · exact intake_before (by simp [hs]) rfl rfl
    | acquiring plan a =>
      simp only [hs] at h
      exact intake_acquire hs h
    | securing plan =>
      simp only [hs, Option.some.injEq] at h
      exact h ▸ intake_secure hs
    | writing plan p =>
      simp only [hs, Option.some.injEq] at h
      exact h ▸ intake_write hs
    | reading plan r =>
      simp only [hs] at h
      exact intake_read hs h
    | parsing plan r data =>
      simp only [hs, Option.some.injEq] at h
      exact h ▸ intake_parse hs
    | offering plan r data =>
      simp only [hs] at h
      exact intake_offer hs h
    | finished => simp [hs] at h

end Intakes

/-- How the octets that were put into the channel stand to the bound. -/
structure Metered (x : Exchange) (log : List Event) (given : Nat) : Prop where
  running : x.stage ≠ .finished → given + x.offered.length ≤ (log.flatMap Event.octets).length ∧
    (x.bound ≠ 0 → ¬ Event.Overrun x.bound log)
  within : x.bound ≠ 0 → given ≤ x.bound ∧ (Event.Announces x.bound log → given = 0)
  failed : ∀ limit, x.channel.outcome = .failed (.tooLarge limit) ↔
    limit = x.bound ∧ x.bound ≠ 0 ∧ Event.Overrun x.bound log

section Metering

variable {x y : Exchange} {m : Push} {hub : Hub} {result : Exchange × Hub} {heard : Bytes}
  {log : List Event} {given : Nat}

theorem metered_new (number : Nat) (request : Request) (options : ClientOptions)
    (defaults : Fields) : (new number request options defaults).Metered [] 0 where
  running _ := ⟨Nat.zero_le _, fun _ ⟨before, piece, after, h, _⟩ => by simp at h⟩
  within _ := ⟨Nat.zero_le _, fun _ => rfl⟩
  failed limit := by simp [new, Channel.ofCapacity, Event.Overrun]

theorem Metered.call (h : x.Metered log given) (called : x.Called y) : y.Metered log given := by
  have hbound : y.bound = x.bound := by simp only [bound, called.asks.options]
  have hoffered : y.offered = x.offered := by simp only [offered, called.stage]
  refine ⟨fun hs => ?_, ?_, fun limit => ?_⟩
  · rw [hbound, hoffered]
    exact h.running (called.stage ▸ hs)
  · rw [hbound]
    exact h.within
  · rw [hbound, called.outcome]
    exact h.failed limit

theorem Told.overLimit_iff {r : Receipt} {e : Event} {q : Parser} (h : x.Told heard log)
    (receipt : x.receipt? = some r) (feed : r.parser.feed (x.feeds m) = (.ok (some e), q)) :
    q.limits.bodyBytes = x.bound ∧
      (q.overLimit = true ↔ x.bound ≠ 0 ∧ Event.Exceeds x.bound (log ++ [e])) := by
  obtain ⟨hlimits, hw⟩ := ((h.within r receipt).1.feed feed).weighed (Parser.weighed_new ..)
  have hbound : q.limits.bodyBytes = x.bound := by
    rw [hlimits]
    rfl
  exact ⟨hbound, hbound ▸ hw.overLimit⟩

theorem Told.account (h : x.Told heard log) (unfinished : x.stage ≠ .finished) (m : Push) :
    ∃ phase, Parser.Account (x.reader.noBody · = ·) (log ++ x.reports m) phase := by
  have hbefore (hr : x.reports m = []) :
      ∃ phase, Parser.Account (x.reader.noBody · = ·) (log ++ x.reports m) phase := by
    rw [hr, List.append_nil]
    cases hreceipt : x.receipt? with
    | none =>
      rw [(h.before hreceipt unfinished).2]
      exact ⟨.statusLine, .head rfl⟩
    | some r => exact ⟨_, ((h.within r hreceipt).1.account rfl).1⟩
  cases m with
  | cancel cause => exact hbefore rfl
  | go quota =>
    by_cases hs : ∃ plan r data, x.stage = .parsing plan r data
    · obtain ⟨plan, r, data, hs⟩ := hs
      have hreceipt : x.receipt? = some r := by simp only [receipt?, hs]
      rcases hf : r.parser.feed data with ⟨error | e, q⟩
      · exact hbefore (reports_of_error hs hf)
      · rw [reports_of_feed hs hf]
        exact ⟨_, (((h.within r hreceipt).1.feed hf).account rfl).1⟩
    · exact hbefore (reports_of_stage (fun plan r data h => hs ⟨plan, r, data, h⟩) _)

theorem chunk_of_failed (proper : x.Proper) (push : x.push m hub = some result) {limit : Nat}
    (hf : result.1.channel.outcome = .failed (.tooLarge limit)) :
    ∃ piece, .chunk piece ∈ x.reports m := by
  have hfault := proper.faults push hf
  obtain ⟨plan, r, data, piece, q, stage, feed, -, -⟩ := (hfault.kind proper.writes).2 rfl
  -- A cancelled exchange fails otherwise, so it was a step that reported the piece.
  cases m with
  | cancel cause =>
    cases cause <;> cases hfault
  | go quota =>
    refine ⟨piece, ?_⟩
    rw [reports_of_feed stage feed]
    simp

theorem puts_of_queue (h : y.channel.queue = x.channel.queue) : (x.puts y).length = 0 := by
  simp [puts, h]

theorem bound_of_push (push : x.push m hub = some result) : result.1.bound = x.bound := by
  simp only [bound, (goes_of_push push).1.options]

theorem Metered.within_more (h : x.Metered log given) (told : x.Told heard log)
    (unfinished : x.stage ≠ .finished) {more : Nat} (hle : more ≤ x.offered.length) :
    x.bound ≠ 0 → given + more ≤ x.bound ∧
      (Event.Announces x.bound (log ++ x.reports m) → given + more = 0) := by
  intro hb
  obtain ⟨hroom, hfits⟩ := h.running unfinished
  have hlog := Event.length_le_of_not_overrun (hfits hb)
  refine ⟨by omega, fun announces => ?_⟩
  obtain ⟨phase, account⟩ := told.account unfinished m
  have hnone := account.octets_of_announces announces (hfits hb)
  rw [hnone, List.length_nil] at hroom
  omega

theorem Metered.failed_silent (h : x.Metered log given) (proper : x.Proper)
    (push : x.push m hub = some result) (silent : ∀ piece, .chunk piece ∉ x.reports m)
    (limit : Nat) : result.1.channel.outcome = .failed (.tooLarge limit) ↔
      limit = x.bound ∧ x.bound ≠ 0 ∧ Event.Overrun x.bound (log ++ x.reports m) := by
  have hfits := (h.running (unfinished_of_push push)).2
  rw [Event.overrun_append_of_silent silent]
  refine ⟨fun hf => ?_, fun h => absurd h.2.2 (hfits h.2.1)⟩
  obtain ⟨piece, hpiece⟩ := chunk_of_failed proper push hf
  exact absurd hpiece (silent piece)

theorem Metered.silent (h : x.Metered log given) (told : x.Told heard log) (proper : x.Proper)
    (push : x.push m hub = some result) (silent : ∀ piece, .chunk piece ∉ x.reports m)
    (hle : (x.puts result.1).length ≤ x.offered.length) (offered : result.1.offered = []) :
    result.1.Metered (log ++ x.reports m) (given + (x.puts result.1).length) := by
  have unfinished := unfinished_of_push push
  obtain ⟨hroom, hfits⟩ := h.running unfinished
  have hbound := bound_of_push push
  refine ⟨fun _ => ?_, hbound ▸ h.within_more told unfinished hle,
    hbound ▸ h.failed_silent proper push silent⟩
  rw [hbound, offered, Event.overrun_append_of_silent silent, List.flatMap_append,
    List.length_append, List.length_nil]
  exact ⟨by omega, hfits⟩

theorem Metered.takes {r : Receipt} {piece : Bytes} {q : Parser} (h : x.Metered log given)
    (told : x.Told heard log) (proper : x.Proper) (push : x.push m hub = some result)
    (receipt : x.receipt? = some r)
    (feed : r.parser.feed (x.feeds m) = (.ok (some (.chunk piece)), q))
    (reports : x.reports m = [.chunk piece]) (fits : q.overLimit = false)
    (channel : result.1.channel = x.channel)
    (offered : result.1.offered = [] ∨ result.1.offered = piece) :
    result.1.Metered (log ++ x.reports m) (given + (x.puts result.1).length) := by
  have unfinished := unfinished_of_push push
  have hpending := (proper.stands.awaited unfinished).outcome
  obtain ⟨hroom, hfits⟩ := h.running unfinished
  have hbound := bound_of_push push
  have hnone : (x.puts result.1).length = 0 := puts_of_queue (congrArg Channel.queue channel)
  obtain ⟨-, hover⟩ := told.overLimit_iff receipt feed
  have hover : x.bound ≠ 0 → ¬ Event.Overrun x.bound (log ++ x.reports m) := by
    intro hb
    rw [reports, Event.overrun_concat_chunk, not_or]
    exact ⟨hfits hb, fun hex => by simp [hover.2 ⟨hb, hex⟩] at fits⟩
  refine ⟨fun _ => ?_, hbound ▸ h.within_more told unfinished (by omega), fun limit => ?_⟩
  · refine hbound ▸ ⟨?_, hover⟩
    have hpiece : result.1.offered.length ≤ piece.length := by
      rcases offered with h | h <;> simp [h]
    rw [reports, List.flatMap_append, List.length_append, List.flatMap_singleton, Event.octets]
    omega
  · rw [hbound, channel, hpending]
    exact ⟨fun hf => (by cases hf), fun h => absurd h.2.2 (hover h.2.1)⟩

theorem Metered.refuses {r : Receipt} {piece : Bytes} {q : Parser} (h : x.Metered log given)
    (told : x.Told heard log) (proper : x.Proper) (push : x.push m hub = some result)
    (receipt : x.receipt? = some r)
    (feed : r.parser.feed (x.feeds m) = (.ok (some (.chunk piece)), q))
    (reports : x.reports m = [.chunk piece]) (exceeds : q.overLimit = true)
    (finished : result.1.stage = .finished)
    (channel : result.1.channel = x.channel.fail (.tooLarge q.limits.bodyBytes)) :
    result.1.Metered (log ++ x.reports m) (given + (x.puts result.1).length) := by
  have unfinished := unfinished_of_push push
  have hpending := (proper.stands.awaited unfinished).outcome
  have hbound := bound_of_push push
  have hnone : (x.puts result.1).length = 0 :=
    puts_of_queue (by rw [channel, Channel.fail, queue_resolve])
  obtain ⟨hlimit, hover⟩ := told.overLimit_iff receipt feed
  obtain ⟨hb, hex⟩ := hover.1 exceeds
  refine ⟨fun hs => absurd finished hs, hbound ▸ h.within_more told unfinished (by omega),
    fun limit => ?_⟩
  rw [hbound, channel, Channel.fail, Channel.outcome_of_pending hpending, hlimit, reports,
    Event.overrun_concat_chunk]
  constructor
  · intro hf
    cases hf
    exact ⟨rfl, hb, .inr hex⟩
  · rintro ⟨rfl, -, -⟩
    rfl

/-- What is put into the channel was offered before, when nothing had shown the body too large. -/
theorem Metered.push (h : x.Metered log given) (told : x.Told heard log) (proper : x.Proper)
    (push : x.push m hub = some result) :
    result.1.Metered (log ++ x.reports m) (given + (x.puts result.1).length) := by
  cases intake_of_push push with
  | rests silent queue offered =>
    exact h.silent told proper push silent (by simp [puts_of_queue queue]) offered
  | takes receipt feed reports fits channel offered =>
    exact h.takes told proper push receipt feed reports fits channel offered
  | refuses receipt feed reports exceeds finished channel =>
    exact h.refuses told proper push receipt feed reports exceeds finished channel
  | passes reports channel passed offered =>
    have hputs : (x.puts result.1).length = x.offered.length := by simp [puts, channel, ← passed]
    exact h.silent told proper push (by simp [reports]) (Nat.le_of_eq hputs) offered

end Metering

end Exchange

namespace Delivery

def hands (s : Delivery) : Act → Bytes
  | .push m hub =>
    match s.exchange.push m hub with
    | none => []
    | some result => s.exchange.puts result.1
  | _ => []

def handed (s : Delivery) : List Act → Bytes
  | [] => []
  | a :: acts => s.hands a ++ (s.apply a).handed acts

/-- An exchange that was asked for a body with a bound, and what it has put into its channel. -/
structure Bounded (s : Delivery) (given : Nat) : Prop where
  sound : s.Sound
  proper : s.exchange.Proper
  metered : s.exchange.Metered s.log given

section Bounds

variable {s : Delivery} {given : Nat}

theorem pushed_or_called (s : Delivery) (a : Act) :
    (∃ m hub result, s.exchange.push m hub = some result ∧ s.apply a = s.pushed m result.1 ∧
        s.hands a = s.exchange.puts result.1) ∨
      s.exchange.Called (s.apply a).exchange ∧ (s.apply a).log = s.log ∧ s.hands a = [] := by
  have hself : s.exchange.Called s.exchange :=
    ⟨.refl _, rfl, ⟨rfl, rfl⟩, rfl, id, .inl rfl⟩
  cases a with
  | push m hub =>
    cases push : s.exchange.push m hub with
    | none =>
      simp only [apply, hands, push]
      exact .inr ⟨hself, trivial, trivial⟩
    | some result =>
      exact .inl ⟨m, hub, result, push, by simp only [apply, push], by simp only [hands, push]⟩
  | leave => exact .inr ⟨s.exchange.called_leave, rfl, rfl⟩
  | pull reader =>
    simp only [apply]
    split
    · exact .inr ⟨hself, rfl, rfl⟩
    · exact .inr ⟨s.exchange.called_pull reader, rfl, rfl⟩
  | look =>
    cases hg : s.gathering with
    | none =>
      simp only [apply, hg]
      exact .inr ⟨hself, trivial, rfl⟩
    | some g =>
      obtain ⟨queue, hq⟩ := g.queue_of_step s.shut s.exchange.channel
      simp only [apply, hg, hq]
      exact .inr ⟨⟨⟨rfl, rfl, rfl⟩, rfl, ⟨rfl, rfl⟩, rfl, id, .inl rfl⟩, trivial, rfl⟩
  | _ =>
    simp only [apply]
    split <;> exact .inr ⟨hself, rfl, rfl⟩

theorem bounded_new (number : Nat) (request : Request) (options : ClientOptions)
    (defaults : Fields) : (new number request options defaults).Bounded 0 :=
  ⟨sound_new .., Exchange.proper_new .., Exchange.metered_new ..⟩

theorem Bounded.apply (h : s.Bounded given) (a : Act) :
    (s.apply a).Bounded (given + (s.hands a).length) := by
  refine ⟨h.sound.apply a, ?_, ?_⟩
  all_goals
    rcases s.pushed_or_called a with ⟨m, hub, result, push, happly, hhands⟩ |
      ⟨called, hlog, hhands⟩
  · rw [happly]
    exact h.proper.push push
  · exact h.proper.call called
  · rw [happly, hhands]
    exact h.metered.push h.sound.recorded.told h.proper push
  · rw [hlog, hhands]
    exact h.metered.call called

theorem Bounded.run (h : s.Bounded given) (acts : List Act) :
    (s.run acts).Bounded (given + (s.handed acts).length) := by
  induction acts generalizing s given with
  | nil => exact h
  | cons a acts ih =>
    rw [handed, List.length_append, ← Nat.add_assoc]
    exact ih (h.apply a)

end Bounds

/-- The bound on bodies. Whatever comes on the connection, however it is cut and framed, no more
than the bound is handed to the reader, and nothing of a body that was announced to be larger. The
transfer fails for it exactly when a piece shows the body to be larger; the parser knows it
whenever the announcement or the pieces tell. Without a bound no transfer fails for it. -/
theorem body_stays_within_bound (number : Nat) (request : Request) (options : ClientOptions)
    (defaults : Fields) (acts : List Act) :
    let d := (new number request options defaults).run acts
    let handed := (new number request options defaults).handed acts
    let bound := options.maxBodyBytes
    (0 < bound → handed.length ≤ bound) ∧
      (0 < bound → Event.Announces bound d.log → handed = []) ∧
      (∀ limit, d.exchange.channel.outcome = .failed (.tooLarge limit) ↔
        0 < bound ∧ limit = bound ∧ Event.Overrun bound d.log) ∧
      (¬ Event.Exceeds bound d.log →
        ∀ limit, d.exchange.channel.outcome ≠ .failed (.tooLarge limit)) ∧
      (bound = 0 → ∀ limit, d.exchange.channel.outcome ≠ .failed (.tooLarge limit)) ∧
      (∀ r, d.exchange.receipt? = some r →
        r.parser.bodyBytes = (d.log.flatMap Event.octets).length ∧
          (r.parser.overLimit = true ↔ 0 < bound ∧
            (Event.Announces bound d.log ∨ bound < r.parser.bodyBytes))) ∧
      ∀ method limits calls,
        let session := Parser.Session.ofCalls (.forMethod method limits) calls
        (session.parser.overLimit = true ↔ 0 < limits.bodyBytes ∧
          (Event.Announces limits.bodyBytes session.events ∨
            limits.bodyBytes < session.parser.bodyBytes)) := by
  intro d handed bound
  have hrun := (bounded_new number request options defaults).run acts
  have hbound : d.exchange.bound = bound := by
    simp only [d, bound, Exchange.bound, options_run]
    rfl
  have hpos : 0 < bound ↔ bound ≠ 0 := Nat.pos_iff_ne_zero
  have hfailed (limit : Nat) : d.exchange.channel.outcome = .failed (.tooLarge limit) ↔
      0 < bound ∧ limit = bound ∧ Event.Overrun bound d.log := by
    rw [hrun.metered.failed limit, hbound, hpos]
    exact and_left_comm
  rw [Nat.zero_add] at hrun
  refine ⟨fun hb => ?_, fun hb announces => ?_, hfailed, fun fits limit hf => ?_,
    fun hb limit hf => ?_, fun r hr => ?_, fun method limits calls => ?_⟩
  · have hwithin := hrun.metered.within (hbound.symm ▸ hpos.1 hb)
    exact hbound ▸ hwithin.1
  · have hwithin := hrun.metered.within (hbound.symm ▸ hpos.1 hb)
    exact List.length_eq_zero_iff.1 (hwithin.2 (hbound.symm ▸ announces))
  · exact fits ((hfailed limit).1 hf).2.2.exceeds
  · exact absurd ((hfailed limit).1 hf).1 (by omega)
  · have hreports := (hrun.sound.recorded.told.within r hr).1
    obtain ⟨hlimits, hw⟩ := hreports.weighed (Parser.weighed_new ..)
    have hlimit : r.parser.limits.bodyBytes = bound := by
      rw [hlimits]
      exact hbound
    refine ⟨hw.bodyBytes, ?_⟩
    rw [hw.overLimit, hlimit, hpos, hw.bodyBytes]
    rfl
  · obtain ⟨hlimits, hw⟩ :=
      Parser.Session.weighed_ofCalls _ (Parser.weighed_new method limits) calls
    dsimp only
    rw [hw.overLimit, hlimits, hw.bodyBytes, Nat.pos_iff_ne_zero]
    rfl

example :
    let s (bound : Nat) : Delivery :=
      new 0 greeted { ClientOptions.standard with maxBodyBytes := bound } .empty
    (s 2).handed greeting = Bytes.ofText "hi" ∧ (s 1).handed greeting = [] ∧
      ((s 1).run greeting).exchange.channel.outcome = .failed (.tooLarge 1) := by
  decide +kernel

end Delivery
end HttpClient
