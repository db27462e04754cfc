import Mathlib.Logic.Relation
import HttpClient.Delivery.Reader
set_option autoImplicit false

/-!
A body that is handed over piece by piece. Each call of the caller looks at the outcome, at the
queue, and at whether the sender is still there, and between two looks the sender can do anything;
so there is a step for every look. Where nobody comes in between, the looks of a call make up one
pull of the reader.
-/

namespace HttpClient

/-- Where a caller is who has asked for the next piece. -/
inductive Call where
  | asks
  | takes
  | holds (piece : Bytes)
  | closes
  | judges
  | ends
  deriving DecidableEq, Repr

inductive Look where
  | goesOn (call : Call)
  | returns (pull : Pull)
  deriving DecidableEq, Repr

namespace Look

def pulls : Look → List Pull
  | .goesOn _ => []
  | .returns pull => [pull]

def unlessFailed (r : Reader) (c : Channel) (next : Look × Reader × Channel) :
    Look × Reader × Channel :=
  match c.failure? with
  | some failure => (.returns (.fail failure), r, c)
  | none => next

def decode (r : Reader) (c : Channel) (piece : Bytes) : Look × Reader × Channel :=
  match Decoder.decodeAll piece r.decoders with
  | (.error failure, ds) => (.returns (.fail (.io failure)), { r with decoders := ds }, c)
  | (.ok [], ds) => (.goesOn .asks, { r with decoders := ds }, c)
  | (.ok out, ds) => (.returns (.data out), { r with decoders := ds }, c)

def finish (r : Reader) (c : Channel) : Look × Reader × Channel :=
  match r.finish with
  | (.ended, r) => (.goesOn .ends, r, c)
  | (pull, r) => (.returns pull, r, c)

/-- One look. That the sender is gone can be seen, `shut`, only some time after the outcome. -/
def step (shut : Bool) : Look × Reader × Channel → Look × Reader × Channel
  | (.goesOn .asks, r, c) => unlessFailed r c <|
    if r.done then (.returns .ended, r, c)
    else if r.listening then (.goesOn .takes, r, c)
    else finish r c
  | (.goesOn .takes, r, c) =>
    match c.queue with
    | piece :: rest => (.goesOn (.holds piece), r, { c with queue := rest })
    | [] =>
      if shut then (.goesOn .closes, { r with listening := false }, c) else (.goesOn .takes, r, c)
  | (.goesOn (.holds piece), r, c) => unlessFailed r c (decode r c piece)
  | (.goesOn .closes, r, c) => unlessFailed r c (.goesOn .judges, r, c)
  | (.goesOn .judges, r, c) =>
    if c.outcome = .complete then finish r c else (.returns (.fail Reader.senderLost), r, c)
  | (.goesOn .ends, r, c) => unlessFailed r c (.returns .ended, r, c)
  | (.returns pull, r, c) => (.returns pull, r, c)

section Courses

variable {shut : Bool} {r : Reader} {c : Channel}

theorem unlessFailed_of_none (h : c.failure? = none) (next : Look × Reader × Channel) :
    unlessFailed r c next = next := by
  simp only [unlessFailed, h]

theorem unlessFailed_of_some {failure : Failure} (h : c.failure? = some failure)
    (next : Look × Reader × Channel) :
    unlessFailed r c next = (.returns (.fail failure), r, c) := by
  simp only [unlessFailed, h]

theorem finish_cases (r : Reader) (c : Channel) :
    ∃ ds, finish r c = (.goesOn .ends, { r with decoders := ds, done := true }, c) ∨
      ∃ pull, finish r c = (.returns pull, { r with decoders := ds, done := true }, c) ∧
        ((∃ out, pull = .data out) ∨ ∃ failure, pull = .fail (.io failure)) := by
  unfold finish Reader.finish
  rcases Decoder.finishAll [] r.decoders with ⟨failure | _ | ⟨b, out⟩, ds⟩
  · exact ⟨ds, .inr ⟨_, rfl, .inr ⟨failure, rfl⟩⟩⟩
  · exact ⟨ds, .inl rfl⟩
  · exact ⟨ds, .inr ⟨_, rfl, .inl ⟨_, rfl⟩⟩⟩

theorem decode_cases (r : Reader) (c : Channel) (piece : Bytes) :
    ∃ ds, decode r c piece = (.goesOn .asks, { r with decoders := ds }, c) ∨
      ∃ pull, decode r c piece = (.returns pull, { r with decoders := ds }, c) ∧
        ((∃ out, pull = .data out) ∨ ∃ failure, pull = .fail (.io failure)) := by
  unfold decode
  rcases Decoder.decodeAll piece r.decoders with ⟨failure | _ | ⟨b, out⟩, ds⟩
  · exact ⟨ds, .inr ⟨_, rfl, .inr ⟨failure, rfl⟩⟩⟩
  · exact ⟨ds, .inl rfl⟩
  · exact ⟨ds, .inr ⟨_, rfl, .inl ⟨_, rfl⟩⟩⟩

/-- A look of a call, with all that it relies on. -/
inductive Course (shut : Bool) (r : Reader) (c : Channel) :
    Call → Look × Reader × Channel → Prop where
  | fails {call : Call} {failure : Failure} (recorded : c.failure? = some failure) :
    Course shut r c call (.returns (.fail failure), r, c)
  | past (intact : c.failure? = none) (done : r.done = true) :
    Course shut r c .asks (.returns .ended, r, c)
  | listens (intact : c.failure? = none) (listening : r.listening = true) :
    Course shut r c .asks (.goesOn .takes, r, c)
  | finishes {call : Call} (intact : c.failure? = none)
      (ready : call = .asks ∧ r.listening = false ∨ call = .judges) :
    Course shut r c call (finish r c)
  | takes {piece : Bytes} {rest : List Bytes} (queue : c.queue = piece :: rest) :
    Course shut r c .takes (.goesOn (.holds piece), r, { c with queue := rest })
  | waits (running : shut = false) : Course shut r c .takes (.goesOn .takes, r, c)
  | closes (queue : c.queue = []) (gone : shut = true) :
    Course shut r c .takes (.goesOn .closes, { r with listening := false }, c)
  | decodes {piece : Bytes} (intact : c.failure? = none) :
    Course shut r c (.holds piece) (decode r c piece)
  | judges (intact : c.failure? = none) : Course shut r c .closes (.goesOn .judges, r, c)
  | lost (incomplete : c.outcome ≠ .complete) :
    Course shut r c .judges (.returns (.fail Reader.senderLost), r, c)
  | ends (intact : c.failure? = none) : Course shut r c .ends (.returns .ended, r, c)

theorem Course.unlessFailed {call : Call} {next : Look × Reader × Channel}
    (h : c.failure? = none → Course shut r c call next) :
    Course shut r c call (Look.unlessFailed r c next) := by
  cases hf : c.failure? with
  | some failure => simpa only [unlessFailed_of_some hf] using .fails hf
  | none => simpa only [unlessFailed_of_none hf] using h hf

theorem course (shut : Bool) (r : Reader) (c : Channel) (call : Call) :
    Course shut r c call (step shut (.goesOn call, r, c)) := by
  cases call with
  | asks =>
    refine .unlessFailed fun hf => ?_
    split
    · next hd => exact .past hf hd
    · split
      · next hl => exact .listens hf hl
      · next hl => exact .finishes hf (.inl ⟨rfl, Bool.eq_false_iff.mpr hl⟩)
  | takes =>
    simp only [step]
    split
    · next hq => exact .takes hq
    · next hq =>
      split
      · next hs => exact .closes hq hs
      · next hs => exact .waits (Bool.eq_false_iff.mpr hs)
  | holds piece => exact .unlessFailed .decodes
  | closes => exact .unlessFailed .judges
  | judges =>
    simp only [step]
    split
    · next ho => exact .finishes (by simp only [Channel.failure?, ho]) (.inr rfl)
    · next ho => exact .lost ho
  | ends => exact .unlessFailed .ends

end Courses

/-- In any number of looks, while the channel is the caller's alone. -/
def Follows (shut : Bool) : Look × Reader × Channel → Look × Reader × Channel → Prop :=
  Relation.ReflTransGen fun s t => t = step shut s

def after : Pull × Reader × Channel → Look × Reader × Channel
  | (.wait, r, c) => (.goesOn .takes, r, c)
  | (pull, r, c) => (.returns pull, r, c)

section Pulls

variable {shut : Bool} {r : Reader} {c : Channel}

theorem Follows.step {s t : Look × Reader × Channel} (h : Follows shut (Look.step shut s) t) :
    Follows shut s t := .head rfl h

theorem follows_finish (h : c.failure? = none) :
    Follows shut (finish r c) (after (r.finish.1, r.finish.2, c)) := by
  unfold finish Reader.finish
  rcases Decoder.finishAll [] r.decoders with ⟨failure | _ | ⟨b, out⟩, ds⟩
  · exact .refl
  · refine .step ?_
    simp only [Look.step, unlessFailed_of_none h]
    exact .refl
  · exact .refl

theorem follows_take (hc : c.failure? = none) {source : Nat} {ds : List Decoder}
    (pieces : List Bytes) :
    Follows (!c.sending) (.goesOn .asks, ⟨source, ds, true, false⟩, { c with queue := pieces })
      (after (Reader.take ⟨source, ds, true, false⟩ c pieces)) := by
  induction pieces generalizing ds with
  | nil =>
    obtain ⟨capacity, queue, outcome, sending, receiving⟩ := c
    refine .step ?_
    simp only [Look.step, unlessFailed_of_none (c := ⟨capacity, [], outcome, _, _⟩) hc,
      Reader.take]
    cases sending with
    | true => exact .refl
    | false =>
      refine .step (.step (.step ?_))
      cases outcome with
      | complete => exact follows_finish rfl
      | failed failure => cases hc
      | pending => exact .refl
  | cons piece rest ih =>
    have hrest : Channel.failure? { c with queue := rest } = none := hc
    refine .step (.step (.step ?_))
    simp only [Look.step, if_true, Bool.false_eq_true, if_false,
      unlessFailed_of_none (c := { c with queue := piece :: rest }) hc,
      unlessFailed_of_none hrest, Reader.take, decode]
    rcases Decoder.decodeAll piece ds with ⟨failure | _ | ⟨b, out⟩, ds⟩
    · exact .refl
    · exact ih
    · exact .refl

/-- While nobody else uses the channel, the looks of a call make up one pull of the reader. -/
theorem follows_pull (r : Reader) (c : Channel) :
    Follows (!c.sending) (.goesOn .asks, r, c) (after (r.pull c)) := by
  obtain ⟨source, ds, listening, done⟩ := r
  unfold Reader.pull
  cases hf : c.failure? with
  | some failure =>
    refine .step ?_
    simp only [Look.step, unlessFailed_of_some hf]
    exact .refl
  | none =>
    have hfirst (next : Look × Reader × Channel) :=
      unlessFailed_of_none (r := ⟨source, ds, listening, done⟩) hf next
    cases done with
    | true =>
      refine .step ?_
      simp only [Look.step, hfirst, if_true]
      exact .refl
    | false =>
      cases listening with
      | true => exact follows_take hf c.queue
      | false =>
        refine .step ?_
        simp only [Look.step, hfirst, Bool.false_eq_true, if_false]
        exact follows_finish hf

end Pulls

end Look

structure Handover where
  channel : Channel
  reader : Reader
  shut : Bool
  call : Option Call
  /-- The data that was accepted, without what was empty. -/
  sent : List Bytes
  told : List Pull

namespace Handover

inductive Act where
  | send (data : Bytes)
  /-- The sender leaves and says how the transfer went. With `pending` it does not say it. -/
  | resolve (outcome : Outcome)
  | shut
  | ask
  | look
  | stop
  | leave
  deriving DecidableEq

def start (capacity source : Nat) (decoders : List Decoder) : Handover :=
  ⟨.ofCapacity capacity, .ofSource source decoders, false, none, [], []⟩

def looked (s : Handover) : Look × Reader × Channel → Handover
  | (.goesOn call, r, c) => { s with reader := r, channel := c, call := some call }
  | (.returns pull, r, c) =>
    { s with reader := r, channel := c, call := none, told := s.told ++ [pull] }

/-- What cannot happen changes nothing. -/
def apply (s : Handover) : Act → Handover
  | .send data =>
    if s.channel.sending then
      match s.channel.send data with
      | .sent c => { s with channel := c, sent := s.sent ++ [data].filter (!·.isEmpty) }
      | _ => s
    else s
  | .resolve outcome =>
    if s.channel.sending then { s with channel := s.channel.resolve outcome } else s
  | .shut => if s.channel.sending then s else { s with shut := true }
  | .ask =>
    if s.channel.receiving && s.call.isNone then { s with call := some .asks } else s
  | .look =>
    match s.call with
    | none => s
    | some call => s.looked (Look.step s.shut (.goesOn call, s.reader, s.channel))
  | .stop => if s.call = some .takes then { s with call := none } else s
  | .leave => { s with channel := s.channel.leave, call := none }

def run (s : Handover) (acts : List Act) : Handover := acts.foldl apply s

theorem run_append (s : Handover) (acts more : List Act) :
    s.run (acts ++ more) = (s.run acts).run more := List.foldl_append

def later (s : Handover) (more : List Act) : List Pull := (s.run more).told.drop s.told.length

theorem apply_look {s : Handover} {call : Call} (hcall : s.call = some call) :
    s.apply .look = s.looked (Look.step s.shut (.goesOn call, s.reader, s.channel)) := by
  simp only [apply, hcall]

theorem told_looked (s : Handover) (next : Look × Reader × Channel) :
    (s.looked next).told = s.told ++ next.1.pulls := by
  obtain ⟨call | pull, r, c⟩ := next
  · exact (List.append_nil _).symm
  · rfl

def tells (s : Handover) : Act → List Pull
  | .look => match s.call with
    | none => []
    | some call => (Look.step s.shut (.goesOn call, s.reader, s.channel)).1.pulls
  | _ => []

theorem told_apply (s : Handover) (act : Act) : (s.apply act).told = s.told ++ s.tells act := by
  cases act with
  | look =>
    simp only [apply, tells]
    split
    · exact (List.append_nil _).symm
    · exact s.told_looked _
  | leave => exact (List.append_nil _).symm
  | send data =>
    simp only [apply, tells, List.append_nil]
    split
    · split <;> rfl
    · rfl
  | _ => simp only [apply, tells, List.append_nil]; split <;> rfl

theorem told_run (s : Handover) (acts : List Act) :
    (s.run acts).told = s.told ++ s.later acts := by
  have h : s.told <+: (s.run acts).told := by
    induction acts generalizing s with
    | nil => exact List.prefix_rfl
    | cons act acts ih =>
      refine .trans ?_ (ih (s.apply act))
      rw [told_apply]
      exact List.prefix_append ..
  exact List.prefix_iff_eq_append.mp h |>.symm

@[simp] theorem later_nil (s : Handover) : s.later [] = [] := List.drop_length

theorem later_append (s : Handover) (acts more : List Act) :
    s.later (acts ++ more) = s.later acts ++ (s.run acts).later more := by
  refine (List.append_right_inj s.told).mp ?_
  rw [← told_run, run_append, told_run, told_run, List.append_assoc]

theorem later_cons (s : Handover) (act : Act) (more : List Act) :
    s.later (act :: more) = s.tells act ++ (s.apply act).later more := by
  refine (List.append_right_inj s.told).mp ?_
  rw [← told_run, ← List.append_assoc, ← told_apply, ← told_run]
  rfl

def Stands (s : Handover) : Call → Prop
  | .asks => True
  | .takes | .holds _ => s.reader.listening = true
  | .closes => s.reader.listening = false
  | .judges | .ends => s.reader.listening = false ∧ s.channel.failure? = none

structure Sound (s : Handover) : Prop where
  running : s.channel.sending = true → s.channel.outcome = .pending
  shut : s.shut = true → s.channel.sending = false
  drained : s.reader.listening = false → s.channel.sending = false ∧ s.channel.queue = []
  past : s.reader.done = true → s.reader.listening = false
  present : s.channel.receiving = false → s.call = none
  stands : ∀ call, s.call = some call → s.Stands call

theorem sound_start (capacity source : Nat) (decoders : List Decoder) :
    (start capacity source decoders).Sound where
  running _ := rfl
  shut h := by cases h
  drained h := by cases h
  past h := by cases h
  present h := by cases h
  stands _ h := by cases h

section Steps

variable {s : Handover}

theorem Sound.send {c : Channel} {sent : List Bytes} (hs : s.Sound)
    (hsending : s.channel.sending = true) (hc : ∃ queue, c = { s.channel with queue := queue }) :
    Sound { s with channel := c, sent := sent } := by
  obtain ⟨queue, rfl⟩ := hc
  refine { hs with drained := fun hl => ?_ }
  have := (hs.drained hl).1
  simp [hsending] at this

theorem Sound.resolve (hs : s.Sound) (hsending : s.channel.sending = true) (outcome : Outcome) :
    Sound { s with channel := s.channel.resolve outcome } := by
  have hlistening : s.reader.listening = true := by
    cases hl : s.reader.listening with
    | true => rfl
    | false => simp [(hs.drained hl).1] at hsending
  rw [Channel.resolve_of_pending (hs.running hsending)]
  refine ⟨fun h => (by cases h), fun _ => rfl, fun hl => ?_, hs.past, hs.present, fun call hc => ?_⟩
  · simp [hlistening] at hl
  · have hstands := hs.stands call hc
    cases call with
    | judges => simp [Stands, hlistening] at hstands
    | ends => simp [Stands, hlistening] at hstands
    | _ => exact hstands

theorem Sound.returned {r : Reader} {told : List Pull} (hs : s.Sound)
    (hl : r.listening = s.reader.listening) (hd : r.done = true → r.listening = false) :
    Sound { s with reader := r, call := none, told := told } :=
  ⟨hs.running, hs.shut, fun h => hs.drained (hl ▸ h), hd, fun _ => rfl, fun _ h => (by cases h)⟩

theorem Sound.goesOn {r : Reader} {call : Call} (hs : s.Sound) (hr : s.channel.receiving = true)
    (hl : r.listening = s.reader.listening) (hd : r.done = true → r.listening = false)
    (hstands : Stands { s with reader := r } call) :
    Sound { s with reader := r, call := some call } := by
  refine ⟨hs.running, hs.shut, fun h => hs.drained (hl ▸ h), hd, fun h => ?_, fun _ h => ?_⟩
  · simp [hr] at h
  · cases h; exact hstands

theorem Sound.receiving (hs : s.Sound) {call : Call} (hcall : s.call = some call) :
    s.channel.receiving = true := by
  cases hr : s.channel.receiving with
  | true => rfl
  | false => simp [hs.present hr] at hcall

theorem Sound.look (hs : s.Sound) {call : Call} {next : Look × Reader × Channel}
    (hcall : s.call = some call) (course : Look.Course s.shut s.reader s.channel call next) :
    (s.looked next).Sound := by
  have hr := hs.receiving hcall
  have hstands := hs.stands call hcall
  cases course with
  | fails | past | lost | ends => exact hs.returned rfl hs.past
  | listens intact listening => exact hs.goesOn hr rfl hs.past listening
  | finishes intact ready =>
    have hl : s.reader.listening = false := by
      rcases ready with ⟨-, hl⟩ | rfl
      · exact hl
      · exact hstands.1
    obtain ⟨ds, h | ⟨pull, h, -⟩⟩ := Look.finish_cases s.reader s.channel <;> rw [h]
    · exact hs.goesOn hr rfl (fun _ => hl) ⟨hl, intact⟩
    · exact hs.returned rfl fun _ => hl
  | takes queue =>
    have hl : s.reader.listening = true := hstands
    refine ⟨hs.running, hs.shut, fun h => ?_, hs.past, fun h => ?_, fun _ h => ?_⟩
    · simp [looked, hl] at h
    · simp [looked, hr] at h
    · cases h; exact hl
  | waits running => exact hs.goesOn hr rfl hs.past hstands
  | closes queue gone =>
    refine ⟨hs.running, hs.shut, fun _ => ⟨hs.shut gone, queue⟩, fun _ => rfl, fun h => ?_,
      fun _ h => ?_⟩
    · simp [looked, hr] at h
    · cases h; exact rfl
  | decodes intact =>
    obtain ⟨ds, h | ⟨pull, h, -⟩⟩ := Look.decode_cases s.reader s.channel _ <;> rw [h]
    · exact hs.goesOn hr rfl hs.past trivial
    · exact hs.returned rfl hs.past
  | judges intact => exact hs.goesOn hr rfl hs.past ⟨hstands, intact⟩

theorem Sound.apply (hs : s.Sound) (act : Act) : (s.apply act).Sound := by
  cases act with
  | send data =>
    simp only [Handover.apply]
    split
    · next hsending =>
      split
      · next c hc =>
        refine hs.send hsending ?_
        rcases Channel.sent_cases hc with ⟨-, rfl⟩ | ⟨-, -, rfl⟩
        · exact ⟨s.channel.queue, rfl⟩
        · exact ⟨_, rfl⟩
      · exact hs
    · exact hs
  | resolve outcome =>
    simp only [Handover.apply]
    split
    · next hsending => exact hs.resolve hsending outcome
    · exact hs
  | shut =>
    simp only [Handover.apply]
    split
    · exact hs
    · next hsending => exact { hs with shut := fun _ => Bool.eq_false_iff.mpr hsending }
  | ask =>
    simp only [Handover.apply]
    split
    · next hfree =>
      simp only [Bool.and_eq_true] at hfree
      refine { hs with present := fun hr => ?_, stands := fun call hc => ?_ }
      · simp [hfree.1] at hr
      · cases hc; exact trivial
    · exact hs
  | look =>
    simp only [Handover.apply]
    split
    · exact hs
    · next hcall => exact hs.look hcall (Look.course ..)
  | stop =>
    simp only [Handover.apply]
    split
    · exact { hs with present := fun _ => rfl, stands := fun _ h => (by cases h) }
    · exact hs
  | leave =>
    exact ⟨hs.running, hs.shut, fun hl => ⟨(hs.drained hl).1, rfl⟩, hs.past, fun _ => rfl,
      fun _ h => (by cases h)⟩

theorem Sound.run (hs : s.Sound) (acts : List Act) : (s.run acts).Sound := by
  induction acts generalizing s with
  | nil => exact hs
  | cons act acts ih => exact ih (hs.apply act)

theorem channel_look {call : Call} {next : Look × Reader × Channel}
    (course : Look.Course s.shut s.reader s.channel call next) :
    ∃ queue, (s.looked next).channel = { s.channel with queue := queue } := by
  cases course with
  | takes queue => exact ⟨_, rfl⟩
  | finishes =>
    obtain ⟨ds, h | ⟨pull, h, -⟩⟩ := Look.finish_cases s.reader s.channel <;> rw [h] <;>
      exact ⟨s.channel.queue, rfl⟩
  | decodes =>
    obtain ⟨ds, h | ⟨pull, h, -⟩⟩ := Look.decode_cases s.reader s.channel _ <;> rw [h] <;>
      exact ⟨s.channel.queue, rfl⟩
  | _ => exact ⟨s.channel.queue, rfl⟩

theorem outcome_apply (h : s.channel.outcome ≠ .pending) (act : Act) :
    (s.apply act).channel.outcome = s.channel.outcome := by
  cases act with
  | send data =>
    simp only [Handover.apply]
    split
    · split
      · next hc => rcases Channel.sent_cases hc with ⟨-, rfl⟩ | ⟨-, -, rfl⟩ <;> rfl
      · rfl
    · rfl
  | resolve outcome =>
    simp only [Handover.apply]
    split
    · exact Channel.outcome_resolve h
    · rfl
  | look =>
    simp only [Handover.apply]
    split
    · rfl
    · next call hcall =>
      obtain ⟨queue, hq⟩ := channel_look (s := s) (Look.course s.shut s.reader s.channel call)
      rw [hq]
  | leave => rfl
  | _ => simp only [Handover.apply]; split <;> rfl

/-- Once a failure is recorded a look cannot return anything else. -/
theorem Sound.look_of_failed (hs : s.Sound) {failure : Failure}
    (hf : s.channel.failure? = some failure) {call : Call} {next : Look × Reader × Channel}
    (hcall : s.call = some call) (course : Look.Course s.shut s.reader s.channel call next) :
    ∀ pull ∈ next.1.pulls, pull = .fail failure := by
  cases course with
  | fails recorded =>
    cases hf.symm.trans recorded
    simp [Look.pulls]
  | lost =>
    have := (hs.stands _ hcall).2
    simp [hf] at this
  | listens | takes | waits | closes | judges => simp [Look.pulls]
  | past intact | finishes intact | decodes intact | ends intact => simp [hf] at intact

theorem Sound.tells_of_failed (hs : s.Sound) {failure : Failure}
    (hf : s.channel.outcome = .failed failure) (act : Act) :
    ∀ pull ∈ s.tells act, pull = .fail failure := by
  unfold tells
  split
  · split
    · simp
    · next hcall =>
      exact hs.look_of_failed (Channel.failure?_eq_some.mpr hf) hcall (Look.course ..)
  · simp

theorem Sound.later_of_failed (hs : s.Sound) {failure : Failure}
    (hf : s.channel.outcome = .failed failure) (more : List Act) :
    ∀ pull ∈ s.later more, pull = .fail failure := by
  induction more generalizing s with
  | nil => simp
  | cons act more ih =>
    rw [later_cons]
    intro pull hp
    rcases List.mem_append.mp hp with hp | hp
    · exact hs.tells_of_failed hf act pull hp
    · exact ih (hs.apply act) ((outcome_apply (by simp [hf]) act).trans hf) pull hp

end Steps

end Handover
end HttpClient
