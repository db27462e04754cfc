import HttpClient.Proofs.Exchange.Delivery
set_option autoImplicit false

/-!
A body that is gathered whole is the body of a whole message, and the body of a whole message is
gathered whole, if only the caller goes on looking.
-/

namespace HttpClient

/-- The looks at most that a gathering still needs, once the sender is gone. -/
def Gathering.left (queue : List Bytes) : Gathering → Nat
  | .asks .. => 3 * queue.length + 5
  | .takes .. => 3 * queue.length + 4
  | .holds .. => 3 * queue.length + 6
  | .closes .. => 3
  | .judges .. => 2
  | .ends .. => 1
  | .returns _ => 0

namespace Gathering

theorem left_unlessFailed (c : Channel) (queue : List Bytes) (next : Gathering) :
    (unlessFailed c next).left queue ≤ next.left queue := by
  unfold unlessFailed
  split
  · exact Nat.zero_le _
  · exact Nat.le_refl _

theorem left_decode (queue : List Bytes) (ds : List Decoder) (got piece : Bytes) :
    (decode ds got piece).left queue ≤ 3 * queue.length + 5 := by
  unfold decode
  split
  · exact Nat.zero_le _
  · exact Nat.le_refl _

theorem left_finish (queue : List Bytes) (ds : List Decoder) (got : Bytes) :
    (finish ds got).left queue ≤ 1 := by
  unfold finish
  split
  · exact Nat.zero_le _
  · exact Nat.le_refl _

theorem left_step (shut : Bool) (c : Channel) (g : Gathering) :
    (g.step shut c).1.left (g.step shut c).2.queue ≤ g.left c.queue - shut.toNat := by
  have hshut : shut.toNat ≤ 1 := Bool.toNat_le shut
  cases g with
  | asks ds got => exact Nat.le_trans (left_unlessFailed c c.queue _) (by simp only [left]; omega)
  | takes ds got =>
    simp only [step]
    split
    · next piece rest hq =>
      simp only [left, hq, List.length_cons]
      omega
    · next hq => cases shut <;> simp [left, hq]
  | holds ds got piece =>
    exact Nat.le_trans (left_unlessFailed c c.queue _)
      (Nat.le_trans (left_decode c.queue ds got piece) (by simp only [left]; omega))
  | closes ds got => exact Nat.le_trans (left_unlessFailed c c.queue _) (by simp only [left]; omega)
  | judges ds got =>
    simp only [step]
    split
    · exact Nat.le_trans (left_finish c.queue ds got) (by simp only [left]; omega)
    · exact Nat.zero_le _
  | ends got => exact Nat.le_trans (left_unlessFailed c c.queue _) (Nat.zero_le _)
  | returns result => exact Nat.zero_le _

theorem returns_of_left {g : Gathering} {queue : List Bytes} (h : g.left queue = 0) :
    ∃ result, g = .returns result := by
  cases g with
  | returns result => exact ⟨result, rfl⟩
  | _ => simp [left] at h

end Gathering

namespace Exchange

/-- The response cannot be received to its end: it is cancelled, it is malformed, its body is over
the bound, or the far end has ended the stream where the parser awaits more. -/
inductive Broken (x : Exchange) : Push → Prop where
  | cancelled (cause : Cause) (running : x.stage ≠ .finished) : Broken x (.cancel cause)
  | unparsed {quota : Nat} {plan : Plan} {r : Receipt} {data : Bytes} {error : ParseError}
      {q : Parser} (stage : x.stage = .parsing plan r data)
      (feed : r.parser.feed data = (.error error, q)) : Broken x (.go quota)
  | tooLarge {quota : Nat} {plan : Plan} {r : Receipt} {data piece : Bytes} {q : Parser}
      (stage : x.stage = .parsing plan r data)
      (feed : r.parser.feed data = (.ok (some (.chunk piece)), q)) (exceeded : q.overLimit = true) :
      Broken x (.go quota)
  | closed {quota : Nat} {plan : Plan} {r : Receipt} {data : Bytes} {q : Parser}
      (stage : x.stage = .parsing plan r data) (feed : r.parser.feed data = (.ok none, q))
      (ended : r.ended = true) : Broken x (.go quota)

theorem faults_of_broken {x : Exchange} {m : Push} (h : x.Broken m) (hub : Hub) :
    ∃ failure, x.Faults hub m failure := by
  cases h with
  | cancelled cause running => exact ⟨_, .cancelled cause running⟩
  | unparsed stage feed => exact ⟨_, .unparsed stage feed⟩
  | tooLarge stage feed exceeded => exact ⟨_, .tooLarge stage feed exceeded⟩
  | closed stage feed ended => exact ⟨_, .incomplete stage feed ended⟩

theorem push_of_broken {x : Exchange} {m : Push} (h : x.Broken m) (hub : Hub) :
    ∃ result, x.push m hub = some result ∧ result.1.stage = .finished ∧
      ∀ trailers, .complete trailers ∉ x.reports m := by
  obtain ⟨failure, fault⟩ := faults_of_broken h hub
  obtain ⟨result, push, fails⟩ := fails_of_faults fault
  refine ⟨result, push, fails.finished, ?_⟩
  cases h with
  | cancelled cause running => simp [reports]
  | unparsed stage feed => simp [reports, stage, feed]
  | tooLarge stage feed exceeded => simp [reports, stage, feed]
  | closed stage feed ended => simp [reports, stage, feed]

end Exchange

namespace Delivery

/-- The parser has reported a head, pieces that make up `b`, as long as the head announced, and the
end of the message. The octets that it was fed hold all that, whatever came after them, unless the
body was to last until the connection ends. -/
def Whole (s : Delivery) (b : Bytes) : Prop :=
  ∃ (head : ResponseHead) (bodiless : Bool) (framing : Framing) (pieces : List Bytes)
    (trailers : Fields),
    s.log = .head head bodiless :: (pieces.map .chunk ++ [.complete trailers]) ∧
    b = pieces.flatten ∧
    Framing.resolve head.fields (s.exchange.reader.noBody head.start.status) = .ok framing ∧
    framing.Filled b.length ∧
    (framing ≠ .untilClose →
      ∃ q, Parser.Run.Same (s.exchange.reader.drain s.heard) (s.log, none, q))

section Ends

variable {s : Delivery} {b : Bytes}

theorem Sound.whole (h : s.Sound) (hc : s.exchange.channel.outcome = .complete) :
    s.Whole (s.log.flatMap Event.octets) := by
  obtain ⟨q, reports, hq⟩ := h.recorded.whole hc
  obtain ⟨head, bodiless, framing, pieces, trailers, hlog, framed, filled, same⟩ :=
    reports.whole (Parser.settled_forMethod _ _) rfl hq
  have hbody : s.log.flatMap Event.octets = pieces.flatten := by
    simp [hlog, Event.octets, List.flatMap_def, Function.comp_def]
  exact ⟨head, bodiless, framing, pieces, trailers, hlog, hbody, framed, hbody ▸ filled,
    fun hclose => ⟨q, same hclose⟩⟩

theorem Sound.whole_of_returns (h : s.Sound) (hg : s.gathering = some (.returns (.ok b)))
    (hp : s.exchange.Plain) : s.Whole b := by
  obtain ⟨hc, hb⟩ := h.gathers _ hg
  exact hb hp ▸ h.whole hc

theorem asks_apply (s : Delivery) (a : Act) : s.exchange.Asks (s.apply a).exchange := by
  cases a with
  | push m hub =>
    simp only [apply]
    split
    · exact .refl _
    · next result push => exact (Exchange.goes_of_push push).1
  | leave => exact s.exchange.called_leave.asks
  | pull reader =>
    simp only [apply]
    split
    · exact .refl _
    · exact (s.exchange.called_pull reader).asks
  | _ =>
    simp only [apply]
    split <;> exact ⟨rfl, rfl, rfl⟩

theorem options_run (s : Delivery) (acts : List Act) :
    (s.run acts).exchange.options = s.exchange.options := by
  induction acts generalizing s with
  | nil => rfl
  | cons a acts ih => exact (ih _).trans (s.asks_apply a).options

structure Ended (s t : Delivery) : Prop where
  stage : t.exchange.stage = .finished
  log : t.log = s.log
  outcome : t.exchange.channel.outcome = s.exchange.channel.outcome
  answer : ∀ a, t.exchange.mailbox = .filled a → s.exchange.mailbox = .filled a

theorem ended_apply (h : s.exchange.stage = .finished) (a : Act) : s.Ended (s.apply a) := by
  have hcalled {y : Exchange} (hy : s.exchange.Called y) (a : Except Failure Answer)
      (ha : y.mailbox = .filled a) : s.exchange.mailbox = .filled a := by
    rcases hy.mailbox with hm | ⟨-, hm⟩
    · exact hm ▸ ha
    · rw [hm] at ha
      cases ha
  cases a with
  | push m hub =>
    simp only [apply]
    split
    · exact ⟨h, rfl, rfl, fun _ => id⟩
    · next result push => exact absurd h (Exchange.unfinished_of_push push)
  | leave =>
    have hy := s.exchange.called_leave
    exact ⟨hy.stage.trans h, rfl, hy.outcome, hcalled hy⟩
  | pull reader =>
    simp only [apply]
    split
    · exact ⟨h, rfl, rfl, fun _ => id⟩
    · have hy := s.exchange.called_pull reader
      exact ⟨hy.stage.trans h, rfl, hy.outcome, hcalled hy⟩
  | shut =>
    simp only [apply]
    split <;> exact ⟨h, rfl, rfl, fun _ => id⟩
  | gather =>
    simp only [apply]
    split <;> exact ⟨h, rfl, rfl, fun _ => id⟩
  | look =>
    simp only [apply]
    split
    · exact ⟨h, rfl, rfl, fun _ => id⟩
    · next g hg =>
      obtain ⟨queue, hq⟩ := g.queue_of_step s.shut s.exchange.channel
      exact ⟨h, rfl, by simp only [hq], fun _ => id⟩

theorem ended_run (h : s.exchange.stage = .finished) (acts : List Act) : s.Ended (s.run acts) := by
  induction acts generalizing s with
  | nil => exact ⟨h, rfl, rfl, fun _ => id⟩
  | cons a acts ih =>
    have hfirst := ended_apply h a
    have hlater := ih hfirst.stage
    exact ⟨hlater.stage, hlater.log.trans hfirst.log, hlater.outcome.trans hfirst.outcome,
      fun a ha => hfirst.answer a (hlater.answer a ha)⟩

/-- A response that was not received to its end is never gathered as a whole one. -/
theorem Sound.not_returns (h : s.Sound) (hs : s.exchange.stage = .finished)
    (hlog : ∀ trailers, .complete trailers ∉ s.log) (later : List Act) :
    (s.run later).gathering ≠ some (.returns (.ok b)) := by
  intro hg
  have hended := ended_run hs later
  have hc := ((h.run later).gathers _ hg).1
  obtain ⟨head, bodiless, framing, pieces, trailers, hwhole, -⟩ := (h.run later).whole hc
  apply hlog trailers
  rw [← hended.log, hwhole]
  simp

end Ends

section Looks

variable {s : Delivery} {g : Gathering}

def left (s : Delivery) : Nat := s.gathering.elim 0 (Gathering.left s.exchange.channel.queue)

theorem left_apply (hs : s.exchange.stage = .finished) (hg : s.gathering.isSome = true) {a : Act}
    (ha : a ≠ .leave) :
    (s.apply a).gathering.isSome = true ∧ (s.shut = true → (s.apply a).shut = true) ∧
      (s.apply a).left ≤ s.left - if s.shut && a.isLook then 1 else 0 := by
  obtain ⟨g, hg⟩ := Option.isSome_iff_exists.1 hg
  cases a with
  | leave => exact absurd rfl ha
  | push m hub =>
    simp only [apply]
    split
    · simp [hg, Act.isLook]
    · next result push => exact absurd hs (Exchange.unfinished_of_push push)
  | shut =>
    simp only [apply]
    split <;> simp [hg, Act.isLook, left]
  | pull reader => simp [apply, hg, Act.isLook]
  | gather => simp [apply, hg, Act.isLook]
  | look =>
    have hstep := g.left_step s.shut s.exchange.channel
    have hnumber : (if s.shut && Act.look.isLook then 1 else 0) = s.shut.toNat := by
      cases s.shut <;> rfl
    rw [hnumber]
    simpa [apply, hg, left] using hstep

theorem left_run (hs : s.exchange.stage = .finished) (hg : s.gathering.isSome = true)
    (acts : List Act) (ha : .leave ∉ acts) :
    (s.run acts).gathering.isSome = true ∧
      (s.run acts).left ≤ s.left - if s.shut then acts.countP Act.isLook else 0 := by
  induction acts generalizing s with
  | nil => exact ⟨hg, by simp [run]⟩
  | cons a acts ih =>
    obtain ⟨hne, ha⟩ : .leave ≠ a ∧ .leave ∉ acts := by simpa using ha
    obtain ⟨hsome, hshut, hleft⟩ := left_apply hs hg (Ne.symm hne)
    obtain ⟨hsome, hrest⟩ := ih (ended_apply hs a).stage hsome ha
    refine ⟨hsome, Nat.le_trans hrest ?_⟩
    rw [List.countP_cons]
    cases hgone : s.shut with
    | false => exact Nat.le_trans (Nat.sub_le _ _) (by simpa [hgone] using hleft)
    | true =>
      simp only [hgone, Bool.true_and] at hleft
      rw [hshut hgone, if_pos rfl, if_pos rfl, Nat.add_comm, ← Nat.sub_sub]
      exact Nat.sub_le_sub_right hleft _

theorem left_le (hg : s.gathering.isSome = true) :
    s.left ≤ 3 * s.exchange.channel.queue.length + 6 := by
  obtain ⟨g, hg⟩ := Option.isSome_iff_exists.1 hg
  simp only [left, hg, Option.elim_some]
  cases g <;> simp [Gathering.left]

theorem returns_of_looks (h : s.Sound) (hs : s.exchange.stage = .finished)
    (hg : s.gathering.isSome = true) (before after : List Act) (ha : .leave ∉ before ++ after)
    (enough : s.left ≤ after.countP Act.isLook) :
    ∃ result, (s.run (before ++ .shut :: after)).gathering = some (.returns result) := by
  obtain ⟨hbefore, hafter⟩ : .leave ∉ before ∧ .leave ∉ after := by simpa using ha
  obtain ⟨hsome, hleft⟩ := left_run hs hg before hbefore
  -- The exchange is over, so nothing but looks matters, and each makes `left` smaller.
  have hends := (ended_run hs before).stage
  have hsending := (h.run before).recorded.finished hends
  have hrun : s.run (before ++ .shut :: after) =
      { s.run before with shut := true : Delivery }.run after := by
    have hshut : (s.run before).apply .shut = { s.run before with shut := true } := by
      simp [apply, hsending]
    rw [run_append, ← hshut]
    rfl
  obtain ⟨hreturns, hnone⟩ :=
    left_run (s := { s.run before with shut := true }) hends hsome after hafter
  rw [← hrun] at hreturns hnone
  obtain ⟨g, hg⟩ := Option.isSome_iff_exists.1 hreturns
  have hzero : (s.run (before ++ .shut :: after)).left = 0 := by
    have hsame : left { s.run before with shut := true } = (s.run before).left := rfl
    simp only [hsame, if_true] at hnone
    omega
  simp only [left, hg, Option.elim_some] at hzero
  obtain ⟨result, rfl⟩ := Gathering.returns_of_left hzero
  exact ⟨result, hg⟩

end Looks

def Open (s : Delivery) : Prop :=
  s.gathering.isSome = true ∨ s.touched = false ∧ ∃ a, s.exchange.mailbox = .filled (.ok a)

/-- Whatever the far end sends, in whatever order the exchange and its caller take their steps, and
whenever the exchange is cancelled: a body that is gathered without an error, and not decoded, is
all that the parser has reported of a whole message. No other response is gathered without an error,
be it malformed, too large, cancelled, or cut off by the end of the stream. And once the parser has
reported the end of the message, the caller gets all of it by looking often enough. -/
theorem gathers_whole (number : Nat) (request : Request) (options : ClientOptions)
    (defaults : Fields) (keep : options.discardBody = false) (acts : List Act) :
    let s := (new number request options defaults).run acts
    let undecoded := ∀ a, s.exchange.mailbox = .filled (.ok a) → a.reader.decoders = []
    (∀ b, s.gathering = some (.returns (.ok b)) → undecoded → s.Whole b) ∧
    (∀ later b, s.exchange.stage = .finished → (∀ trailers, .complete trailers ∉ s.log) →
      (s.run later).gathering ≠ some (.returns (.ok b))) ∧
    (∀ m hub later b, s.exchange.Broken m →
      ((s.apply (.push m hub)).run later).gathering ≠ some (.returns (.ok b))) ∧
    (∀ trailers before after, .complete trailers ∈ s.log → undecoded → s.Open →
      .leave ∉ before ++ after →
      3 * s.exchange.channel.queue.length + 6 ≤ after.countP Act.isLook →
      (s.run (.gather :: before ++ .shut :: after)).gathering =
        some (.returns (.ok (s.log.flatMap Event.octets)))) := by
  intro s undecoded
  have h : s.Sound := (sound_new number request options defaults).run acts
  have hkeep : s.exchange.options.discardBody = false := by
    rw [options_run]
    exact keep
  refine ⟨fun b hg hu => h.whole_of_returns hg ⟨hkeep, hu⟩,
    fun later b hs hlog => h.not_returns hs hlog later, fun m hub later b hbroken => ?_,
    fun trailers before after hlog hu hopen ha enough => ?_⟩
  · obtain ⟨result, push, hfinished, hreports⟩ := Exchange.push_of_broken hbroken hub
    have happly : s.apply (.push m hub) = s.pushed m result.1 := by simp only [apply, push]
    have hbefore := (h.recorded.running (Exchange.unfinished_of_push push)).2.2
    rw [happly]
    refine (h.pushed push).not_returns hfinished (fun trailers => ?_) later
    simp [pushed, hbefore trailers, hreports trailers]
  · have hc : s.exchange.channel.outcome = .complete := by
      by_contra hc
      exact h.recorded.incomplete hc trailers hlog
    have hs := h.recorded.finished_of_outcome (by simp [hc])
    have hsome : (s.apply .gather).gathering.isSome = true := by
      rcases hopen with hg | ⟨ht, a, hm⟩
      · obtain ⟨g, hg⟩ := Option.isSome_iff_exists.1 hg
        simp [apply, hg]
      · cases hg : s.gathering <;> simp [apply, hg, ht, hm]
    have hqueue : (s.apply .gather).exchange = s.exchange := by
      simp only [apply]
      split <;> rfl
    obtain ⟨result, hreturns⟩ := returns_of_looks (h.apply .gather) (ended_apply hs .gather).stage
      hsome before after ha (Nat.le_trans (hqueue ▸ left_le hsome) enough)
    have hended := ended_run hs (.gather :: (before ++ .shut :: after))
    have hplain : ((s.apply .gather).run (before ++ .shut :: after)).exchange.Plain := by
      refine ⟨?_, fun a ha => hu a (hended.answer _ ha)⟩
      rw [options_run, hqueue]
      exact hkeep
    have hknown := ((h.apply .gather).run (before ++ .shut :: after)).gathers _ hreturns
    cases result with
    | ok b =>
      rw [← hended.log]
      exact hknown.2 hplain ▸ hreturns
    | error failure => exact absurd (hended.outcome.trans hc) (hknown hplain).2

def undecoded (s : Delivery) : Bool :=
  match s.exchange.mailbox with
  | .filled (.ok a) => a.reader.decoders.isEmpty
  | _ => true

theorem decoders_of_undecoded {s : Delivery} (h : s.undecoded = true) (a : Answer)
    (ha : s.exchange.mailbox = .filled (.ok a)) : a.reader.decoders = [] := by
  simpa [undecoded, ha] using h

/-- A response of two octets. The caller begins to gather them before they are there. -/
def greeting : List Act :=
  let answer := Bytes.ofText "HTTP/1.1 200 OK\r\nContent-Length: 2\r\n\r\nhi"
  let fresh : Hub := .new .none .standard
  let hub : Hub := { fresh with links := [⟨"h:80", .connected, answer, none, [], none⟩] }
  [.push (.go 1) fresh, .push (.go 1) fresh, .push (.go 1) hub, .push (.go 1) hub,
    .push (.go 1) hub, .push (.go 100) hub, .push (.go 1) hub, .gather, .look, .push (.go 1) hub,
    .push (.go 1) hub, .look, .push (.go 1) hub]

def greeted : Request :=
  .ofUrl "GET" ⟨"http", "", none, some "h", none, .segments [""], none, none⟩

theorem gathers_whole_greeting :
    ClientOptions.standard.discardBody = false ∧
      let s := (new 0 greeted .standard .empty).run
        (greeting ++ .gather :: .shut :: List.replicate 6 .look)
      s.gathering = some (.returns (.ok (Bytes.ofText "hi"))) ∧ s.Whole (Bytes.ofText "hi") := by
  have holds := gathers_whole 0 greeted .standard .empty rfl
  obtain ⟨-, -, -, hends⟩ := holds greeting
  obtain ⟨hwhole, -⟩ := holds (greeting ++ .gather :: .shut :: List.replicate 6 .look)
  have hlog : ((new 0 greeted .standard .empty).run greeting).log.getLast? =
      some (.complete .empty) := by decide +kernel
  have hbody : ((new 0 greeted .standard .empty).run greeting).log.flatMap Event.octets =
      Bytes.ofText "hi" := by decide +kernel
  have hreturns := hends .empty [] (List.replicate 6 .look) (List.mem_of_getLast? hlog)
    (decoders_of_undecoded (by decide +kernel)) (.inl (by decide +kernel)) (by simp)
    (by decide +kernel)
  rw [hbody, ← run_append] at hreturns
  exact ⟨rfl, hreturns, hwhole _ hreturns (decoders_of_undecoded (by decide +kernel))⟩

end Delivery
end HttpClient
