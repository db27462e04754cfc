import HttpClient.Proofs.Exchange.Resolution
set_option autoImplicit false

/-!
Which failures an exchange can end with. What is wrong with the request itself is known before any
response; a body that is too large is found by its parser only; and no exchange knows of redirects.
-/

namespace HttpClient

/-- A failure of the request itself, or of reading its body. -/
def Failure.OfRequest (f : Failure) : Prop := f.kind = .protocol ∨ f.kind = .socket

def Checks {α : Type} (x : Except Failure α) : Prop := ∀ f, x = .error f → f.OfRequest

namespace Checks

variable {α β : Type}

theorem ok (a : α) : Checks (.ok a) := fun _ h => by cases h

theorem protocol (error : ProtocolError) :
    Checks (.error (.protocol error) : Except Failure α) := by
  rintro f ⟨⟩
  exact .inl rfl

theorem ofHead (x : Except HeadError α) : Checks (x.mapError Failure.ofHead) := by
  intro f h
  cases x <;> cases h
  exact .inl rfl

theorem io (x : Except IoFailure α) : Checks (x.mapError Failure.io) := by
  intro f h
  cases x <;> cases h
  exact .inr rfl

theorem ofProtocol (x : Except ProtocolError α) : Checks (x.mapError Failure.protocol) := by
  intro f h
  cases x <;> cases h
  exact .inl rfl

theorem bind {x : Except Failure α} {g : α → Except Failure β} (hx : Checks x)
    (hg : ∀ a, Checks (g a)) : Checks (x >>= g) := by
  intro f h
  cases x with
  | error failure =>
    cases h
    exact hx _ rfl
  | ok a => exact hg a f h

end Checks

section Preparing

theorem Prepared.checks_frame (r : Request) (h : Fields) : Checks (frame r h) := by
  unfold frame
  dsimp only
  split
  · exact .ok _
  · split
    · exact .ok _
    · split
      · split
        · exact .ok _
        · exact .protocol _
      · exact .bind (.io _) fun length => .ofHead _

theorem Prepared.checks_prepare (r : Request) (version : Version) (defaults : Fields) :
    Checks (prepare r version defaults) := by
  refine .bind (.ofHead _) fun completed => .bind (checks_frame r completed) fun framed => ?_
  dsimp only
  split
  · exact .protocol _
  · exact .bind (.ofHead _) fun _ => .ok _

theorem Exchange.checks_plan (x : Exchange) : Checks x.plan := by
  have hrest (version : Version) : Checks do
      let endpoint ← (Endpoint.ofUrl x.request.url).mapError Failure.protocol
      return (⟨endpoint, ← Prepared.prepare x.request version x.defaults⟩ : Plan) :=
    .bind (.ofProtocol _) fun _ => .bind (Prepared.checks_prepare _ _ _) fun _ => .ok _
  unfold plan
  dsimp only
  split
  · exact .bind (.ok _) hrest
  · exact .bind (.protocol _) hrest

theorem Payload.ofRequest_of_close {framing : PayloadFraming} {held : Option Bytes}
    {left : Option Nat} {broken : Option IoFailure} {f : Failure}
    (h : (close framing held left broken).failure = some f) : f.OfRequest := by
  unfold close at h
  split at h
  · cases h
    exact .inr rfl
  · dsimp only at h
    split at h <;> cases h
    exact .inl rfl

theorem Payload.ofRequest_of_chunks {framing : PayloadFraming} {broken : Option IoFailure}
    {chunks : List Bytes} {held : Option Bytes} {left : Option Nat} {f : Failure}
    (h : (ofChunks framing broken held left chunks).failure = some f) : f.OfRequest := by
  induction chunks generalizing held left with
  | nil => exact ofRequest_of_close h
  | cons chunk rest ih =>
    simp only [ofChunks] at h
    split at h
    · cases h
      exact .inl rfl
    · cases held <;> exact ih h

theorem Payload.ofRequest_of_failure {p : Prepared} {body : RequestBody} {f : Failure}
    (h : (ofRequest p body).failure = some f) : f.OfRequest := by
  simp only [ofRequest, write] at h
  split at h
  · exact ofRequest_of_chunks h
  · cases h

end Preparing

namespace Exchange

def Writes (x : Exchange) : Prop :=
  ∀ plan p, x.stage = .writing plan p → ∀ f, p.failure = some f → f.OfRequest

section Failures

variable {x y : Exchange} {m : Push} {hub : Hub} {f : Failure}

theorem writes_of_stage (hs : ∀ plan p, x.stage ≠ .writing plan p) : x.Writes :=
  fun plan p h => absurd h (hs plan p)

theorem writes_new (number : Nat) (request : Request) (options : ClientOptions)
    (defaults : Fields) : (new number request options defaults).Writes :=
  writes_of_stage (by simp [new])

theorem writes_ofRequest {plan : Plan} {p : Prepared} {body : RequestBody}
    (hs : x.stage = .writing plan (.ofRequest p body)) : x.Writes := by
  intro plan' p' hs'
  cases hs.symm.trans hs'
  exact fun f hf => Payload.ofRequest_of_failure hf

theorem Writes.call (h : x.Writes) (stage : y.stage = x.stage) : y.Writes :=
  fun plan p hs => h plan p (stage ▸ hs)

theorem Writes.push {result : Exchange × Hub} (h : x.Writes)
    (push : x.push m hub = some result) : result.1.Writes := by
  cases (goes_of_push push).2 with
  | quit touched quits => exact writes_of_stage (by simp [quits.stage])
  | planned stage made next => exact writes_of_stage (by simp [next])
  | acquiring stage step next => exact writes_of_stage (by simp [next])
  | acquired stage step next =>
    rcases next with next | next
    · exact writes_of_stage (by simp [next])
    · exact writes_ofRequest next
  | unacquired stage step quits => exact writes_of_stage (by simp [quits.stage])
  | secured stage connection carries next => exact writes_ofRequest next
  | wrote stage writes found write next =>
    intro plan' p' hs'
    cases next.symm.trans hs'
    exact fun f hf => h _ _ stage f hf
  | written stage writes failure next => exact writes_of_stage (by simp [next])
  | read stage found read next => exact writes_of_stage (by simp [next])
  | retried stage touched like next => exact writes_of_stage (by simp [next])
  | parsed stage feed next =>
    rcases next with next | next | ⟨piece, next⟩ <;> exact writes_of_stage (by simp [next])
  | offered stage next => exact writes_of_stage (by simp [next])
  | returned completes stage => exact writes_of_stage (by simp [stage])

theorem kind_ofCause (cause : Cause) (target : String) :
    (Failure.ofCause cause target).kind = .cancelled ∨
      (Failure.ofCause cause target).kind = .timeout := by
  cases cause
  · exact .inl rfl
  · exact .inr rfl

/-- A body too large is found when a piece of it comes, and in no other way. -/
theorem Faults.kind (fault : x.Faults hub m f) (hw : x.Writes) :
    f.kind ≠ .tooManyRedirects ∧ (f.kind = .streamTooLarge → ∃ plan r data piece q,
      x.stage = .parsing plan r data ∧ r.parser.feed data = (.ok (some (.chunk piece)), q) ∧
        q.overLimit = true ∧ f = .tooLarge q.limits.bodyBytes) := by
  have hrequest (hf : f.OfRequest) : f.kind ≠ .tooManyRedirects ∧ f.kind ≠ .streamTooLarge := by
    rcases hf with hf | hf <;> simp [hf]
  have hcause (cause : Cause) : (Failure.ofCause cause x.target).kind ≠ .tooManyRedirects ∧
      (Failure.ofCause cause x.target).kind ≠ .streamTooLarge := by
    rcases kind_ofCause cause x.target with hk | hk <;> simp [hk]
  have hother (h : f.kind ≠ .tooManyRedirects ∧ f.kind ≠ .streamTooLarge) :
      f.kind ≠ .tooManyRedirects ∧ (f.kind = .streamTooLarge → ∃ plan r data piece q,
        x.stage = .parsing plan r data ∧ r.parser.feed data = (.ok (some (.chunk piece)), q) ∧
          q.overLimit = true ∧ f = .tooLarge q.limits.bodyBytes) :=
    ⟨h.1, fun hk => absurd hk h.2⟩
  cases fault with
  | cancelled cause => exact hother (hcause cause)
  | unplanned stage plan => exact hother (hrequest (checks_plan x f plan))
  | @unacquired _ _ _ error _ stage step =>
    cases error with
    | cancelled cause => exact hother (hcause cause)
    | connect authority source => exact hother (by simp [Failure.ofAcquire, Failure.kind])
    | tunnel error => exact hother (by simp [Failure.ofAcquire, Failure.kind])
  | unproduced stage writes broken => exact hother (hrequest (hw _ _ stage f broken))
  | @incomplete _ _ r _ q stage feed ended =>
    refine hother ?_
    unfold Exchange.broken
    split <;> simp [Failure.kind]
  | tooLarge stage feed over_ =>
    exact ⟨by simp [Failure.kind], fun _ => ⟨_, _, _, _, _, stage, feed, over_, rfl⟩⟩
  | _ => exact hother (by simp [Failure.kind, Failure.ofHead, Exchange.unconnected])

end Failures

end Exchange
end HttpClient
