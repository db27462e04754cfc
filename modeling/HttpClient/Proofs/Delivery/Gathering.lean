import Mathlib.Logic.Relation
import HttpClient.Delivery.Reader
set_option autoImplicit false

/-!
A caller who wants the whole body, step by step. The caller looks at the outcome, at the queue, and
at whether the sender is still there, and between two looks the exchange can do anything; so there
is a step for every look. Where nobody comes in between, the steps are the pulls of a reader.
-/

namespace HttpClient

/-- What the caller does next, with what was got so far. -/
inductive Gathering where
  | asks (decoders : List Decoder) (got : Bytes)
  | takes (decoders : List Decoder) (got : Bytes)
  | holds (decoders : List Decoder) (got piece : Bytes)
  | closes (decoders : List Decoder) (got : Bytes)
  | judges (decoders : List Decoder) (got : Bytes)
  | ends (got : Bytes)
  | returns (result : Except Failure Bytes)

namespace Gathering

def unlessFailed (c : Channel) (next : Gathering) : Gathering :=
  match c.failure? with
  | some failure => .returns (.error failure)
  | none => next

def decode (decoders : List Decoder) (got piece : Bytes) : Gathering :=
  match Decoder.decodeAll piece decoders with
  | (.error failure, _) => .returns (.error (.io failure))
  | (.ok out, decoders) => .asks decoders (got ++ out)

def finish (decoders : List Decoder) (got : Bytes) : Gathering :=
  match Decoder.finishAll [] decoders with
  | (.error failure, _) => .returns (.error (.io failure))
  | (.ok out, _) => .ends (got ++ out)

/-- One look. That the sender is gone can be seen, `shut`, only some time after the outcome. -/
def step (shut : Bool) (c : Channel) : Gathering → Gathering × Channel
  | .asks ds got => (unlessFailed c (.takes ds got), c)
  | .takes ds got =>
    match c.queue with
    | piece :: rest => (.holds ds got piece, { c with queue := rest })
    | [] => (if shut then .closes ds got else .takes ds got, c)
  | .holds ds got piece => (unlessFailed c (decode ds got piece), c)
  | .closes ds got => (unlessFailed c (.judges ds got), c)
  | .judges ds got =>
    (if c.outcome = .complete then finish ds got else .returns (.error Reader.senderLost), c)
  | .ends got => (unlessFailed c (.returns (.ok got)), c)
  | .returns result => (.returns result, c)

theorem queue_of_step (g : Gathering) (shut : Bool) (c : Channel) :
    ∃ queue, (g.step shut c).2 = { c with queue := queue } := by
  cases g with
  | takes ds got =>
    simp only [step]
    split
    · exact ⟨_, rfl⟩
    · exact ⟨c.queue, rfl⟩
  | _ => exact ⟨c.queue, rfl⟩

/-- In any number of steps, while the channel is the caller's alone. -/
def Follows (shut : Bool) : Gathering × Channel → Gathering × Channel → Prop :=
  Relation.ReflTransGen fun s t => t = s.1.step shut s.2

def after (got : Bytes) : Pull × Reader × Channel → Gathering × Channel
  | (.wait, r, c) => (.takes r.decoders got, c)
  | (.data out, r, c) =>
    (if r.done then .ends (got ++ out) else .asks r.decoders (got ++ out), c)
  | (.ended, _, c) => (.returns (.ok got), c)
  | (.fail failure, _, c) => (.returns (.error failure), c)

section Pulls

variable {shut : Bool} {c : Channel} {ds : List Decoder} {got : Bytes} {r : Reader}

theorem Follows.step {s t : Gathering × Channel} (h : Follows shut (s.1.step shut s.2) t) :
    Follows shut s t := .head rfl h

theorem unlessFailed_of_none (h : c.failure? = none) (next : Gathering) :
    unlessFailed c next = next := by
  simp only [unlessFailed, h]

theorem follows_finish (h : c.failure? = none) (ho : c.outcome = .complete) :
    Follows shut (.judges r.decoders got, c) (after got (r.finish.1, r.finish.2, c)) := by
  refine .step ?_
  simp only [Gathering.step, ho, if_true, finish, Reader.finish]
  rcases Decoder.finishAll [] r.decoders with ⟨failure | _ | ⟨b, out⟩, ds⟩
  · exact .refl
  · refine .step ?_
    simp only [Gathering.step, unlessFailed_of_none h, List.append_nil]
    exact .refl
  · exact .refl

theorem follows_take (hc : c.failure? = none) (hd : r.done = false) (pieces : List Bytes) :
    Follows (!c.sending) (.asks r.decoders got, { c with queue := pieces })
      (after got (r.take c pieces)) := by
  induction pieces generalizing r got with
  | nil =>
    obtain ⟨capacity, queue, outcome, sending, receiving⟩ := c
    refine .step ?_
    simp only [Gathering.step, unlessFailed_of_none (c := ⟨capacity, [], outcome, _, _⟩) hc,
      Reader.take]
    cases sending with
    | true => exact .refl
    | false =>
      refine .step (.step ?_)
      cases outcome with
      | complete => exact follows_finish (r := { r with listening := false }) rfl rfl
      | failed failure => cases hc
      | pending => exact .step .refl
  | cons piece rest ih =>
    have hrest : Channel.failure? { c with queue := rest } = none := hc
    refine .step (.step (.step ?_))
    simp only [Gathering.step, unlessFailed_of_none (c := { c with queue := piece :: rest }) hc,
      unlessFailed_of_none hrest, Reader.take, decode]
    rcases Decoder.decodeAll piece r.decoders with ⟨failure | _ | ⟨b, out⟩, ds⟩
    · exact .refl
    · simpa using @ih got { r with decoders := ds } hd
    · simp only [after, hd]
      exact .refl

/-- While nobody else uses the channel, the steps of a gathering make up the pulls of a reader. -/
theorem follows_pull (hl : r.listening = true) (hd : r.done = false) :
    Follows (!c.sending) (.asks r.decoders got, c) (after got (r.pull c)) := by
  unfold Reader.pull
  cases hf : c.failure? with
  | some failure =>
    refine .step ?_
    simp only [Gathering.step, unlessFailed, hf]
    exact .refl
  | none =>
    simp only [hd, hl]
    exact follows_take hf hd c.queue

end Pulls

end Gathering
end HttpClient
