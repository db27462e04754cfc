import HttpClient.Proofs.Delivery.Gathering
import HttpClient.Proofs.Exchange.Passage
import HttpClient.Proofs.Exchange.Projection
set_option autoImplicit false

/-!
One exchange and the caller who wants its whole body, in any order of their steps. The hub can be
another one at every push, so the far end and the other exchanges may have done anything to it in
between. Beside the state there is a record, which nothing reads, of what the parser was fed and of
what it reported.
-/

namespace HttpClient

def Gathering.hasReturned : Gathering → Bool
  | .returns _ => true
  | _ => false

structure Delivery where
  exchange : Exchange
  heard : Bytes
  log : List Event
  shut : Bool
  /-- Pieces of the body were taken one by one, or the response was dropped. -/
  touched : Bool
  gathering : Option Gathering

namespace Exchange

/-- The body is to be handed out as it comes: nothing is discarded and nothing decoded. -/
structure Plain (x : Exchange) : Prop where
  kept : x.options.discardBody = false
  decoders : ∀ a, x.mailbox = .filled (.ok a) → a.reader.decoders = []

/-- The response is still received, or was received to its end. -/
def Live (x : Exchange) : Prop := x.stage ≠ .finished ∨ x.channel.outcome = .complete

/-- With `got` nothing is lost of what the parser reported, and all is in order. -/
def Carries (x : Exchange) (log : List Event) (got : Bytes) : Prop :=
  x.Plain → x.Live → got ++ x.channel.queue.flatten ++ x.offered = log.flatMap Event.octets

/-- What a gathering has that has not returned. -/
structure Has (x : Exchange) (log : List Event) (decoders : List Decoder) (got : Bytes) :
    Prop where
  decoders : x.Plain → decoders = []
  carries : x.Carries log got

/-- The caller has seen that the queue is empty and the sender gone. -/
structure Seen (x : Exchange) (shut : Bool) : Prop where
  shut : shut = true
  queue : x.channel.queue = []

/-- The channel tells how the response has ended, as the parser has reported it. -/
structure Recorded (x : Exchange) (heard : Bytes) (log : List Event) : Prop where
  told : x.Told heard log
  running : x.stage ≠ .finished →
    x.channel.outcome = .pending ∧ x.channel.sending = true ∧ ∀ trailers, .complete trailers ∉ log
  finished : x.stage = .finished → x.channel.sending = false
  whole : x.channel.outcome = .complete →
    ∃ q, x.reader.Reports heard log q ∧ q.phase.part = .ended
  incomplete : x.channel.outcome ≠ .complete → ∀ trailers, .complete trailers ∉ log

def Gathers (x : Exchange) (log : List Event) (shut : Bool) : Gathering → Prop
  | .asks ds got | .takes ds got => x.Has log ds got
  | .holds ds got piece => x.Has log ds (got ++ piece)
  | .closes ds got | .judges ds got => x.Has log ds got ∧ x.Seen shut
  | .ends got => x.Carries log got ∧ x.Seen shut ∧ x.channel.outcome = .complete
  | .returns (.ok got) =>
    x.channel.outcome = .complete ∧ (x.Plain → got = log.flatMap Event.octets)
  | .returns (.error _) => x.Plain → x.stage = .finished ∧ x.channel.outcome ≠ .complete

end Exchange

namespace Delivery

inductive Act where
  | push (m : Push) (hub : Hub)
  | shut
  | leave
  | pull (reader : Reader)
  | gather
  | look

def Act.isLook : Act → Bool
  | .look => true
  | _ => false

def new (number : Nat) (request : Request) (options : ClientOptions) (defaults : Fields) :
    Delivery :=
  ⟨.new number request options defaults, [], [], false, false, none⟩

def pushed (s : Delivery) (m : Push) (x : Exchange) : Delivery :=
  { s with
    exchange := x, heard := s.heard ++ s.exchange.feeds m, log := s.log ++ s.exchange.reports m }

def apply (s : Delivery) : Act → Delivery
  | .push m hub =>
    match s.exchange.push m hub with
    | none => s
    | some result => s.pushed m result.1
  | .shut => if s.exchange.channel.sending then s else { s with shut := true }
  | .leave =>
    { s with
      exchange := s.exchange.leave, touched := true,
      gathering := s.gathering.filter Gathering.hasReturned }
  | .pull reader =>
    match s.gathering with
    | some _ => s
    | none => { s with exchange := (s.exchange.pull reader).2.2, touched := true }
  | .gather =>
    match s.gathering, s.touched, s.exchange.mailbox with
    | none, false, .filled (.ok a) => { s with gathering := some (.asks a.reader.decoders []) }
    | _, _, _ => s
  | .look =>
    match s.gathering with
    | none => s
    | some g =>
      let (g, c) := g.step s.shut s.exchange.channel
      { s with gathering := some g, exchange := { s.exchange with channel := c } }

def run (s : Delivery) (acts : List Act) : Delivery := acts.foldl apply s

theorem run_append (s : Delivery) (acts more : List Act) :
    s.run (acts ++ more) = (s.run acts).run more := List.foldl_append

/-- What the exchange, the record of it and the caller know of each other. -/
structure Sound (s : Delivery) : Prop where
  recorded : s.exchange.Recorded s.heard s.log
  shut : s.shut = true → s.exchange.channel.sending = false
  untouched : s.gathering = none → s.touched = false → s.exchange.Carries s.log []
  gathers : ∀ g, s.gathering = some g → s.exchange.Gathers s.log s.shut g

end Delivery

namespace Exchange

theorem offered_of_finished {x : Exchange} (h : x.stage = .finished) : x.offered = [] := by
  simp only [offered, h]

section Pushes

variable {x : Exchange} {m : Push} {hub : Hub} {result : Exchange × Hub} {log : List Event}
  {got : Bytes}

theorem Plain.of_push (hp : result.1.Plain) (push : x.push m hub = some result) : x.Plain where
  kept := by
    rw [← (goes_of_push push).1.options]
    exact hp.kept
  decoders a ha := hp.decoders a (((passes_of_push push).mailbox (by simp [ha])).trans ha)

/-- A push loses nothing, unless it is the end of a transfer that has failed. -/
theorem Carries.push (hc : x.Carries log got) (hpending : x.channel.outcome = .pending)
    (push : x.push m hub = some result) : result.1.Carries (log ++ x.reports m) got := by
  intro hp hlive
  have hp := hp.of_push push
  rw [List.flatMap_append, ← hc hp (.inl (unfinished_of_push push))]
  cases (passes_of_push push).passage with
  | on unfinished channel incomplete carried told =>
    rw [channel, List.append_assoc, carried hp.kept]
    simp only [List.append_assoc]
  | completes receipt feed reports offered finished channel =>
    rw [channel, Channel.complete, Channel.resolve_of_pending hpending, reports, offered,
      offered_of_finished finished]
    simp [Event.octets]
  | fails incomplete finished channel =>
    rcases hlive with hlive | hlive
    · exact absurd finished hlive
    · simp [channel, Channel.fail, Channel.resolve_of_pending hpending] at hlive
  | abandons incomplete finished channel =>
    rcases hlive with hlive | hlive
    · exact absurd finished hlive
    · simp [channel, Channel.abandon, hpending] at hlive

theorem Has.push {ds : List Decoder} (hg : x.Has log ds got)
    (hpending : x.channel.outcome = .pending) (push : x.push m hub = some result) :
    result.1.Has (log ++ x.reports m) ds got where
  decoders hp := hg.decoders (hp.of_push push)
  carries := hg.carries.push hpending push

theorem Gathers.push {g : Gathering} {shut : Bool} (hg : x.Gathers log shut g)
    (hpending : x.channel.outcome = .pending) (hshut : shut = false)
    (push : x.push m hub = some result) : result.1.Gathers (log ++ x.reports m) shut g := by
  have hseen (hs : x.Seen shut) : False := by simpa [hshut] using hs.shut
  cases g with
  | asks ds got => exact Has.push hg hpending push
  | takes ds got => exact Has.push hg hpending push
  | holds ds got piece => exact Has.push hg hpending push
  | closes ds got => exact (hseen hg.2).elim
  | judges ds got => exact (hseen hg.2).elim
  | ends got => exact (hseen hg.2.1).elim
  | returns result =>
    cases result with
    | ok got => simp [Gathers, hpending] at hg
    | error failure => exact fun hp => absurd (hg (hp.of_push push)).1 (unfinished_of_push push)

/-- An exchange that ends without the end of the message never says that it was complete. -/
theorem recorded_of_end {y : Exchange} {heard : Bytes} (finished : y.stage = .finished)
    (sending : y.channel.sending = false) (outcome : y.channel.outcome ≠ .complete)
    (incomplete : ∀ trailers, .complete trailers ∉ log) : y.Recorded heard log where
  told := ⟨fun _ hs => absurd finished hs, fun r hr => by simp [receipt?, finished] at hr⟩
  running hs := absurd finished hs
  finished _ := sending
  whole hc := absurd hc outcome
  incomplete _ := incomplete

theorem Recorded.push {heard : Bytes} (h : x.Recorded heard log)
    (push : x.push m hub = some result) :
    result.1.Recorded (heard ++ x.feeds m) (log ++ x.reports m) := by
  obtain ⟨hpending, hsending, hincomplete⟩ := h.running (unfinished_of_push push)
  have hlog (hreports : ∀ trailers, .complete trailers ∉ x.reports m) (trailers : Fields) :
      .complete trailers ∉ log ++ x.reports m := by
    simp [hincomplete trailers, hreports trailers]
  cases (passes_of_push push).passage with
  | on unfinished channel incomplete carried told =>
    refine ⟨told _ _ h.told, fun _ => ⟨?_, ?_, hlog incomplete⟩, fun hf => absurd hf unfinished,
      fun hc => ?_, fun _ => hlog incomplete⟩
    · simpa only [channel] using hpending
    · simpa only [channel] using hsending
    · simp [channel, hpending] at hc
  | @completes r q trailers receipt feed reports offered finished channel =>
    rw [Channel.complete, Channel.resolve_of_pending hpending] at channel
    refine ⟨⟨fun _ hs => absurd finished hs, fun r' hr => by simp [receipt?, finished] at hr⟩,
      fun hs => absurd finished hs, fun _ => by simp [channel], fun _ => ⟨q, ?_, ?_⟩, fun hc => ?_⟩
    · rw [reader_of_asks (goes_of_push push).1, reports]
      exact (h.told.within r receipt).1.feed feed
    · exact Parser.ended_of_feed feed
    · simp [channel] at hc
  | fails incomplete finished channel =>
    rw [Channel.fail, Channel.resolve_of_pending hpending] at channel
    exact recorded_of_end finished (by simp [channel]) (by simp [channel]) (hlog incomplete)
  | abandons incomplete finished channel =>
    rw [Channel.abandon] at channel
    exact recorded_of_end finished (by simp [channel]) (by simp [channel, hpending])
      (hlog incomplete)

theorem Recorded.finished_of_outcome {heard : Bytes} (h : x.Recorded heard log)
    (hc : x.channel.outcome ≠ .pending) : x.stage = .finished := by
  by_contra hs
  exact hc (h.running hs).1

theorem Recorded.finished_of_sending {heard : Bytes} (h : x.Recorded heard log)
    (hs : x.channel.sending = false) : x.stage = .finished := by
  by_contra hrun
  have hsend := (h.running hrun).2.1
  rw [hs] at hsend
  cases hsend

end Pushes

section Looks

variable {x y : Exchange} {log : List Event} {got : Bytes} {shut : Bool}

theorem Told.of_stage {heard : Bytes} (h : x.Told heard log) (asks : x.Asks y)
    (stage : y.stage = x.stage) : y.Told heard log := by
  have hreceipt : y.receipt? = x.receipt? := by simp only [receipt?, stage]
  have hpending : y.pending = x.pending := by simp only [pending, stage]
  refine ⟨fun hr hs => h.before (hreceipt ▸ hr) (stage ▸ hs), fun r hr => ?_⟩
  rw [reader_of_asks asks, hpending]
  exact h.within r (hreceipt ▸ hr)

theorem Recorded.call {heard : Bytes} (h : x.Recorded heard log) (asks : x.Asks y)
    (stage : y.stage = x.stage) (outcome : y.channel.outcome = x.channel.outcome)
    (sending : y.channel.sending = x.channel.sending) : y.Recorded heard log where
  told := h.told.of_stage asks stage
  running hs := by
    rw [outcome, sending]
    exact h.running (stage ▸ hs)
  finished hs := sending ▸ h.finished (stage ▸ hs)
  whole hc := by
    rw [reader_of_asks asks]
    exact h.whole (outcome ▸ hc)
  incomplete hc := h.incomplete (outcome ▸ hc)

theorem Called.plain (h : x.Called y) (hp : y.Plain) : x.Plain where
  kept := h.asks.options ▸ hp.kept
  decoders a ha := hp.decoders a ((h.keeps.mailbox (by simp [ha])).trans ha)

theorem Carries.take {piece : Bytes} {rest : List Bytes} (h : x.Carries log got)
    (hq : x.channel.queue = piece :: rest) :
    Carries { x with channel := { x.channel with queue := rest } } log (got ++ piece) := by
  intro hp hlive
  have hx := h ⟨hp.kept, hp.decoders⟩ hlive
  rw [hq, List.flatten_cons] at hx
  rw [← hx]
  simp [offered]

theorem Has.decode {ds : List Decoder} {piece : Bytes} (hg : x.Has log ds (got ++ piece)) :
    x.Gathers log shut (Gathering.decode ds got piece) := by
  have hplain (hp : x.Plain) : Decoder.decodeAll piece ds = (.ok piece, []) := by
    rw [hg.decoders hp]
    rfl
  unfold Gathering.decode
  rcases hd : Decoder.decodeAll piece ds with ⟨failure | out, ds'⟩
  · intro hp
    rw [hplain hp] at hd
    cases hd
  · refine ⟨fun hp => ?_, fun hp => ?_⟩
    all_goals
      rw [hplain hp] at hd
      cases hd
    · rfl
    · exact hg.carries hp

theorem Has.finish {ds : List Decoder} (hg : x.Has log ds got) (hs : x.Seen shut)
    (hc : x.channel.outcome = .complete) : x.Gathers log shut (Gathering.finish ds got) := by
  have hplain (hp : x.Plain) : Decoder.finishAll [] ds = (.ok [], []) := by
    rw [hg.decoders hp]
    rfl
  unfold Gathering.finish
  rcases hd : Decoder.finishAll [] ds with ⟨failure | out, ds'⟩
  · intro hp
    rw [hplain hp] at hd
    cases hd
  · refine ⟨fun hp => ?_, hs, hc⟩
    rw [hplain hp] at hd
    cases hd
    rw [List.append_nil]
    exact hg.carries hp

/-- Every look keeps what the caller knows. A failure that is found has ended the exchange. -/
theorem Gathers.look {g : Gathering} (hg : x.Gathers log shut g)
    (hfinished : x.channel.outcome ≠ .pending ∨ shut = true → x.stage = .finished) :
    Gathers { x with channel := (g.step shut x.channel).2 } log shut (g.step shut x.channel).1 := by
  have hcheck (next : Gathering) (hnext : x.Gathers log shut next) :
      x.Gathers log shut (Gathering.unlessFailed x.channel next) := by
    unfold Gathering.unlessFailed
    split
    · next failure hf =>
      have houtcome : x.channel.outcome = .failed failure := by
        unfold Channel.failure? at hf
        split at hf <;> cases hf
        assumption
      exact fun _ => ⟨hfinished (.inl (by simp [houtcome])), by simp [houtcome]⟩
    · exact hnext
  cases g with
  | asks ds got => exact hcheck (.takes ds got) hg
  | takes ds got =>
    simp only [Gathering.step]
    split
    · next piece rest hq => exact ⟨fun hp => hg.decoders ⟨hp.kept, hp.decoders⟩, hg.carries.take hq⟩
    · next hq =>
      split
      · next hs => exact ⟨hg, hs, hq⟩
      · exact hg
  | holds ds got piece => exact hcheck _ (Has.decode hg)
  | closes ds got => exact hcheck (.judges ds got) hg
  | judges ds got =>
    simp only [Gathering.step]
    split
    · next hc => exact Has.finish hg.1 hg.2 hc
    · next hc => exact fun _ => ⟨hfinished (.inr hg.2.shut), hc⟩
  | ends got =>
    obtain ⟨carries, seen, complete⟩ := hg
    refine hcheck (.returns (.ok got)) ⟨complete, fun hp => ?_⟩
    have hall := carries hp (.inr complete)
    rw [seen.queue, offered_of_finished (hfinished (.inr seen.shut))] at hall
    simpa using hall
  | returns result => exact hg

theorem Gathers.of_shut {g : Gathering} (hg : x.Gathers log shut g) : x.Gathers log true g := by
  cases g with
  | closes ds got => exact ⟨hg.1, rfl, hg.2.queue⟩
  | judges ds got => exact ⟨hg.1, rfl, hg.2.queue⟩
  | ends got => exact ⟨hg.1, ⟨rfl, hg.2.1.queue⟩, hg.2.2⟩
  | returns result => cases result <;> exact hg
  | _ => exact hg

end Looks

end Exchange

namespace Delivery

section Sound

variable {s : Delivery} {m : Push} {hub : Hub} {result : Exchange × Hub}

theorem sound_new (number : Nat) (request : Request) (options : ClientOptions)
    (defaults : Fields) : (new number request options defaults).Sound where
  recorded := ⟨⟨fun _ _ => ⟨rfl, rfl⟩, fun _ hr => by cases hr⟩,
    fun _ => ⟨rfl, rfl, by simp [new]⟩, fun hs => (by cases hs), fun hc => (by cases hc),
    fun _ => by simp [new]⟩
  shut := nofun
  untouched _ _ _ _ := rfl
  gathers := nofun

theorem Sound.pushed (h : s.Sound) (push : s.exchange.push m hub = some result) :
    (s.pushed m result.1).Sound := by
  have hrunning := Exchange.unfinished_of_push push
  have hpending := (h.recorded.running hrunning).1
  have hopen (hs : s.shut = true) : False :=
    hrunning (h.recorded.finished_of_sending (h.shut hs))
  exact ⟨h.recorded.push push, fun hs => (hopen hs).elim,
    fun hn ht => (h.untouched hn ht).push hpending push,
    fun g hg => (h.gathers g hg).push hpending (Bool.eq_false_iff.2 hopen) push⟩

theorem Sound.left (h : s.Sound) : (s.apply .leave).Sound := by
  have hcalled := s.exchange.called_leave
  have hsending : s.exchange.leave.channel.sending = s.exchange.channel.sending := by
    unfold Exchange.leave
    split <;> rfl
  refine ⟨h.recorded.call hcalled.asks hcalled.stage hcalled.outcome hsending,
    fun hs => hsending ▸ h.shut hs, fun _ ht => (by cases ht), fun g hg => ?_⟩
  obtain ⟨hg, hreturns⟩ := Option.filter_eq_some_iff.1 hg
  have hknown := h.gathers g hg
  cases g with
  | returns result =>
    cases result with
    | ok got => exact ⟨hcalled.outcome.trans hknown.1, fun hp => hknown.2 (hcalled.plain hp)⟩
    | error failure =>
      intro hp
      obtain ⟨hstage, houtcome⟩ := hknown (hcalled.plain hp)
      exact ⟨hcalled.stage.trans hstage, fun hc => houtcome (hcalled.outcome.symm.trans hc)⟩
  | _ => cases hreturns

theorem Sound.looked {g : Gathering} (h : s.Sound) (hg : s.gathering = some g) :
    (s.apply .look).Sound := by
  have hfinished (hc : s.exchange.channel.outcome ≠ .pending ∨ s.shut = true) :
      s.exchange.stage = .finished :=
    hc.elim h.recorded.finished_of_outcome fun hs => h.recorded.finished_of_sending (h.shut hs)
  obtain ⟨queue, hq⟩ := g.queue_of_step s.shut s.exchange.channel
  have hknown := (h.gathers g hg).look hfinished
  simp only [Delivery.apply, hg, hq] at hknown ⊢
  refine ⟨h.recorded.call ⟨rfl, rfl, rfl⟩ rfl rfl rfl, h.shut, fun hn => (by cases hn),
    fun g' hg' => ?_⟩
  cases hg'
  exact hknown

theorem Sound.apply (h : s.Sound) (a : Act) : (s.apply a).Sound := by
  cases a with
  | push m hub =>
    simp only [Delivery.apply]
    split
    · exact h
    · next result push => exact h.pushed push
  | shut =>
    simp only [Delivery.apply]
    split
    · exact h
    · next hs =>
      refine ⟨h.recorded, fun _ => Bool.eq_false_iff.2 hs, h.untouched, fun g hg => ?_⟩
      exact Exchange.Gathers.of_shut (h.gathers g hg)
  | leave => exact h.left
  | pull reader =>
    simp only [Delivery.apply]
    split
    · exact h
    · next hg =>
      have hcalled := s.exchange.called_pull reader
      obtain ⟨queue, hq⟩ := reader.queue_of_pull s.exchange.channel
      have hsending :
          (s.exchange.pull reader).2.2.channel.sending = s.exchange.channel.sending := by
        simp only [Exchange.pull, hq]
      exact ⟨h.recorded.call hcalled.asks hcalled.stage hcalled.outcome hsending,
        fun hs => hsending ▸ h.shut hs, fun _ ht => (by cases ht),
        fun g hg' => by simp [hg] at hg'⟩
  | gather =>
    simp only [Delivery.apply]
    split
    · next a hg ht hm =>
      refine ⟨h.recorded, h.shut, fun hn => (by cases hn), fun g hg' => ?_⟩
      cases hg'
      exact ⟨fun hp => hp.decoders a hm, h.untouched hg ht⟩
    · exact h
  | look =>
    cases hg : s.gathering with
    | none => simpa only [Delivery.apply, hg] using h
    | some g => exact h.looked hg

theorem Sound.run (h : s.Sound) (acts : List Act) : (s.run acts).Sound := by
  induction acts generalizing s with
  | nil => exact h
  | cons a acts ih => exact ih (h.apply a)

end Sound

def Act.ofExchange : Exchange.Act → Act
  | .push m hub => .push m hub
  | .leave => .leave
  | .pull reader => .pull reader

section Traffic

variable {d : Delivery}

theorem apply_ofExchange (hg : d.gathering = none) (act : Exchange.Act) :
    (d.apply (.ofExchange act)).exchange = d.exchange.apply act ∧
      (d.apply (.ofExchange act)).gathering = none := by
  cases act with
  | push m hub =>
    cases push : d.exchange.push m hub <;>
      simp [Act.ofExchange, apply, Exchange.apply, push, pushed, hg]
  | leave => simp [Act.ofExchange, apply, Exchange.apply, hg]
  | pull reader => simp [Act.ofExchange, apply, Exchange.apply, hg]

theorem run_ofExchange (hg : d.gathering = none) (acts : List Exchange.Act) :
    (d.run (acts.map .ofExchange)).exchange = d.exchange.run acts := by
  induction acts generalizing d with
  | nil => rfl
  | cons act acts ih =>
    obtain ⟨hexchange, hgathering⟩ := apply_ofExchange hg act
    have hrest := ih hgathering
    rw [hexchange] at hrest
    exact hrest

/-- Every exchange among others is the exchange of a delivery. -/
theorem exists_of_traffic {i : Nat} {x : Exchange} (proxies : Proxies) (config : PoolConfig)
    (acts : List Traffic.Act) (hx : ((Traffic.new proxies config).run acts).exchange i = some x) :
    ∃ request options defaults more, ((new i request options defaults).run more).exchange = x := by
  obtain ⟨request, options, defaults, own, rfl, -⟩ := Traffic.exists_own proxies config hx
  exact ⟨request, options, defaults, own.map .ofExchange, run_ofExchange rfl own⟩

end Traffic

end Delivery
end HttpClient
