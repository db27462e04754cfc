import HttpClient.Failure
set_option autoImplicit false

/-!
The bounded queue between the exchange that receives a body and the caller who reads it. The
outcome of the transfer is kept beside the queue, so a failure overtakes the queued data.
-/

namespace HttpClient

inductive Outcome where
  | pending
  | complete
  | failed (failure : Failure)
  deriving DecidableEq, Repr

structure Channel where
  capacity : Nat
  queue : List Bytes
  outcome : Outcome
  sending : Bool
  receiving : Bool
  deriving DecidableEq, Repr

inductive Sent where
  | sent (channel : Channel)
  | full
  | refused
  deriving DecidableEq, Repr

namespace Channel

def ofCapacity (n : Nat) : Channel := ⟨max n 1, [], .pending, true, true⟩

def standardCapacity : Nat := 8

def failure? (c : Channel) : Option Failure :=
  match c.outcome with
  | .failed failure => some failure
  | _ => none

theorem failure?_eq_some {c : Channel} {failure : Failure} :
    c.failure? = some failure ↔ c.outcome = .failed failure := by
  unfold failure?
  split
  · next h => simp [h]
  · next h => simpa using h failure

def send (data : Bytes) (c : Channel) : Sent :=
  if data.isEmpty then .sent c
  else if !c.receiving then .refused
  else if c.capacity ≤ c.queue.length then .full
  else .sent { c with queue := c.queue ++ [data] }

theorem queue_of_send {data : Bytes} {c d : Channel} (h : c.send data = .sent d) :
    d.queue.flatten = c.queue.flatten ++ data := by
  unfold send at h
  split at h
  · next he => cases h; simp_all
  · split at h
    · cases h
    · split at h
      · cases h
      · cases h; simp

theorem sent_cases {data : Bytes} {c d : Channel} (h : c.send data = .sent d) :
    data.isEmpty = true ∧ d = c ∨
      data.isEmpty = false ∧ c.receiving = true ∧ d = { c with queue := c.queue ++ [data] } := by
  unfold send at h
  split at h
  · next he => cases h; exact .inl ⟨he, rfl⟩
  · next he =>
    split at h
    · cases h
    · next hr =>
      split at h
      · cases h
      · cases h; exact .inr ⟨Bool.eq_false_iff.mpr he, by simpa using hr, rfl⟩

theorem length_of_send {data : Bytes} {c d : Channel} (h : c.send data = .sent d)
    (hc : c.queue.length ≤ c.capacity) : d.queue.length ≤ d.capacity := by
  unfold send at h
  split at h
  · cases h; exact hc
  · split at h
    · cases h
    · split at h
      · cases h
      · next hl => cases h; simp only [List.length_append, List.length_singleton]; omega

def resolve (outcome : Outcome) (c : Channel) : Channel :=
  match c.outcome with
  | .pending => { c with outcome := outcome, sending := false }
  | _ => { c with sending := false }

theorem outcome_resolve {outcome : Outcome} {c : Channel} (h : c.outcome ≠ .pending) :
    (c.resolve outcome).outcome = c.outcome := by
  unfold resolve
  split
  · next hp => exact absurd hp h
  · rfl

theorem resolve_of_pending {c : Channel} (h : c.outcome = .pending) (outcome : Outcome) :
    c.resolve outcome = { c with outcome := outcome, sending := false } := by
  simp only [resolve, h]

def complete (c : Channel) : Channel := c.resolve .complete

def fail (failure : Failure) (c : Channel) : Channel := c.resolve (.failed failure)

def abandon (c : Channel) : Channel := { c with sending := false }

/-- The receiver leaves, and what is queued is lost. -/
def leave (c : Channel) : Channel := { c with receiving := false, queue := [] }

end Channel
end HttpClient
