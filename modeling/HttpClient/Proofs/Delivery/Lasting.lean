import HttpClient.Proofs.Delivery.Handover
set_option autoImplicit false

/-!
How long an error of a body lasts. The failure that the sender has recorded is returned by every
later call. No other error is remembered: neither that the sender has gone without a word nor that a
decoder has failed. A caller who goes on after such an error can get to a regular end.
-/

namespace HttpClient

namespace Reader

def left (r : Reader) (c : Channel) : Nat :=
  if r.done then 0 else if r.listening then c.queue.length + 2 else 1

/-- A pull ends the body, or it returns something and fewer than `n` pulls are left. -/
def Shortens (c : Channel) (n : Nat) (next : Pull × Reader × Channel) : Prop :=
  next.1 = .ended ∨
    next.1 ≠ .wait ∧ next.2.1.left next.2.2 < n ∧ ∃ queue, next.2.2 = { c with queue := queue }

section Ends

variable {c : Channel}

theorem Shortens.mono {n m : Nat} {next : Pull × Reader × Channel} (h : Shortens c n next)
    (hn : n ≤ m) : Shortens c m next := by
  rcases h with h | ⟨hpull, hleft, hc⟩
  · exact .inl h
  · exact .inr ⟨hpull, Nat.lt_of_lt_of_le hleft hn, hc⟩

theorem shortens_finish (r : Reader) (c : Channel) :
    Shortens c 1 (r.finish.1, r.finish.2, c) := by
  unfold finish
  rcases Decoder.finishAll [] r.decoders with ⟨failure | _ | ⟨b, out⟩, ds⟩
  · exact .inr ⟨Pull.noConfusion, Nat.zero_lt_one, c.queue, rfl⟩
  · exact .inl rfl
  · exact .inr ⟨Pull.noConfusion, Nat.zero_lt_one, c.queue, rfl⟩

theorem shortens_take (hc : c.sending = false) {source : Nat} {ds : List Decoder}
    (pieces : List Bytes) :
    Shortens c (pieces.length + 2) (take ⟨source, ds, true, false⟩ c pieces) := by
  induction pieces generalizing ds with
  | nil =>
    obtain ⟨capacity, queue, outcome, sending, receiving⟩ := c
    cases hc
    cases outcome with
    | complete => exact (shortens_finish ⟨source, ds, false, false⟩ _).mono (Nat.le_succ 1)
    | failed failure => exact .inr ⟨Pull.noConfusion, Nat.lt_succ_self 1, [], rfl⟩
    | pending => exact .inr ⟨Pull.noConfusion, Nat.lt_succ_self 1, [], rfl⟩
  | cons piece rest ih =>
    have hrest : rest.length + 2 < (piece :: rest).length + 2 := Nat.lt_succ_self _
    simp only [take]
    rcases Decoder.decodeAll piece ds with ⟨failure | _ | ⟨b, out⟩, ds⟩
    · exact .inr ⟨Pull.noConfusion, hrest, rest, rfl⟩
    · exact ih.mono (Nat.le_of_lt hrest)
    · exact .inr ⟨Pull.noConfusion, hrest, rest, rfl⟩

theorem shortens_pull (r : Reader) (hc : c.sending = false) (hf : c.failure? = none) :
    Shortens c (r.left c) (r.pull c) := by
  obtain ⟨source, ds, listening, done⟩ := r
  simp only [pull, hf]
  cases done with
  | true => exact .inl rfl
  | false =>
    cases listening with
    | true => exact shortens_take hc c.queue
    | false => exact shortens_finish _ c

end Ends

end Reader

namespace Handover

section Runs

variable {s : Handover}

theorem looked_looked (s : Handover) (call : Call) (r : Reader) (c : Channel)
    (next : Look × Reader × Channel) :
    (s.looked (.goesOn call, r, c)).looked next = s.looked next := by
  obtain ⟨_ | _, _, _⟩ := next <;> rfl

theorem run_of_follows {call : Call} {next : Look × Reader × Channel} (hcall : s.call = some call)
    (h : Look.Follows s.shut (.goesOn call, s.reader, s.channel) next) :
    ∃ acts, s.run acts = s.looked next := by
  induction h with
  | refl => exact ⟨[], by simp only [looked, ← hcall]; rfl⟩
  | @tail next next' _ hstep ih =>
    obtain ⟨acts, hacts⟩ := ih
    rw [hstep]
    obtain ⟨call' | pull, r, c⟩ := next
    · refine ⟨acts ++ [.look], ?_⟩
      rw [run_append, hacts]
      exact s.looked_looked call' r c _
    · exact ⟨acts, hacts⟩

theorem run_of_pull (hcall : s.call = none) (hr : s.channel.receiving = true)
    (hs : s.shut = !s.channel.sending) {pull : Pull} {r : Reader} {c : Channel}
    (hpull : s.reader.pull s.channel = (pull, r, c)) (hwait : pull ≠ .wait) :
    ∃ acts, s.run acts =
      { s with reader := r, channel := c, told := s.told ++ [pull] } := by
  have hask : s.apply .ask = { s with call := some .asks } := by
    simp [apply, hcall, hr]
  have hfollows := Look.follows_pull s.reader s.channel
  rw [← hs, hpull] at hfollows
  obtain ⟨acts, hacts⟩ := run_of_follows (s := { s with call := some .asks }) rfl hfollows
  refine ⟨.ask :: acts, ?_⟩
  rw [show s.run (.ask :: acts) = (s.apply .ask).run acts from rfl, hask, hacts]
  cases pull with
  | wait => exact absurd rfl hwait
  | _ => simp only [Look.after, looked, hcall]

/-- The sender has gone, no failure is recorded, and the caller can ask. -/
structure Deserted (s : Handover) : Prop where
  call : s.call = none
  receiving : s.channel.receiving = true
  shut : s.shut = true
  sending : s.channel.sending = false
  intact : s.channel.failure? = none

theorem Deserted.ends (hs : s.Deserted) : ∃ more, .ended ∈ s.later more := by
  induction hn : s.reader.left s.channel using Nat.strongRecOn generalizing s with
  | ind n ih =>
    subst hn
    have hshortens := Reader.shortens_pull s.reader hs.sending hs.intact
    rcases hpull : s.reader.pull s.channel with ⟨pull, r, c⟩
    rw [hpull] at hshortens
    have hrun (hwait : pull ≠ .wait) :
        ∃ acts, s.later acts = [pull] ∧ s.run acts =
          { s with reader := r, channel := c, told := s.told ++ [pull] } := by
      obtain ⟨acts, hacts⟩ :=
        run_of_pull hs.call hs.receiving (by simp [hs.shut, hs.sending]) hpull hwait
      refine ⟨acts, ?_, hacts⟩
      simp only [later, hacts, List.drop_left]
    rcases hshortens with rfl | ⟨hwait, hleft, queue, rfl⟩
    · obtain ⟨acts, hacts, -⟩ := hrun Pull.noConfusion
      exact ⟨acts, by simp [hacts]⟩
    · obtain ⟨acts, hacts, hstate⟩ := hrun hwait
      have hnext : Deserted { s with
          reader := r, channel := { s.channel with queue := queue }, told := s.told ++ [pull] } :=
        ⟨hs.call, hs.receiving, hs.shut, hs.sending, hs.intact⟩
      obtain ⟨more, hmore⟩ := ih _ hleft hnext rfl
      refine ⟨acts ++ more, ?_⟩
      rw [later_append, hacts, hstate]
      exact List.mem_append_right _ hmore

/-- An error that is not on record comes from the decoders, or from the end of the queue. -/
theorem intact_of_fail (hs : s.Sound) {call : Call} {next : Look × Reader × Channel}
    {failure : Failure} (hcall : s.call = some call)
    (course : Look.Course s.shut s.reader s.channel call next)
    (hfail : next.1 = .returns (.fail failure)) :
    s.channel.failure? = some failure ∨ s.channel.failure? = none := by
  cases course with
  | fails recorded =>
    cases hfail
    exact .inl recorded
  | lost => exact .inr (hs.stands _ hcall).2
  | finishes intact | decodes intact => exact .inr intact
  | _ => cases hfail

/-- Where the caller is free and no failure is on record, the sender can leave, and then the body
can be read to its end. -/
theorem Sound.ends (hs : s.Sound) (hcall : s.call = none) (hr : s.channel.receiving = true)
    (hf : s.channel.failure? = none) : ∃ more, .ended ∈ s.later more := by
  have hleaves : Deserted ((s.apply (.resolve .complete)).apply .shut) := by
    by_cases hsending : s.channel.sending = true
    · have hresolve : s.apply (.resolve .complete) =
          { s with channel := { s.channel with outcome := .complete, sending := false } } := by
        simp [Handover.apply, hsending, Channel.resolve_of_pending (hs.running hsending)]
      rw [hresolve]
      exact ⟨hcall, hr, rfl, rfl, rfl⟩
    · simp only [Handover.apply, if_neg hsending]
      exact ⟨hcall, hr, rfl, Bool.eq_false_iff.mpr hsending, hf⟩
  obtain ⟨more, hmore⟩ := hleaves.ends
  refine ⟨[.resolve .complete, .shut] ++ more, ?_⟩
  rw [later_append]
  exact List.mem_append_right _ hmore

/-- An error lasts exactly if it is the failure that the sender has recorded; after any other the
body can come to a regular end. -/
theorem error_lasts_iff_recorded (capacity source : Nat) (decoders : List Decoder)
    (acts : List Act) {failure : Failure}
    (h : ((start capacity source decoders).run acts).later [.look] = [.fail failure]) :
    let s := (start capacity source decoders).run (acts ++ [.look])
    (s.channel.outcome = .failed failure → ∀ more, ∀ pull ∈ s.later more, pull = .fail failure) ∧
      (s.channel.outcome ≠ .failed failure → ∃ more, .ended ∈ s.later more) := by
  have hs := (sound_start capacity source decoders).run acts
  rw [run_append]
  generalize (start capacity source decoders).run acts = s at h hs
  have hlook : Sound (s.run [.look]) := hs.run [.look]
  refine ⟨hlook.later_of_failed, fun hrecorded => ?_⟩
  rw [later_cons, later_nil, List.append_nil] at h
  simp only [tells] at h
  split at h
  · cases h
  · next call hcall =>
    have hstate : s.run [.look] =
        s.looked (Look.step s.shut (.goesOn call, s.reader, s.channel)) := apply_look hcall
    have hcourse := Look.course s.shut s.reader s.channel call
    obtain ⟨queue, hchannel⟩ := channel_look (s := s) hcourse
    rw [hstate] at hrecorded hlook ⊢
    rcases hnext : Look.step s.shut (.goesOn call, s.reader, s.channel) with ⟨call' | pull, r, c⟩
    · simp [hnext, Look.pulls] at h
    · rw [hnext] at h hcourse hchannel hrecorded hlook
      cases h
      refine hlook.ends rfl ?_ ?_
      · rw [hchannel]
        exact hs.receiving hcall
      · have hunrecorded := mt Channel.failure?_eq_some.mp hrecorded
        rw [hchannel] at hunrecorded ⊢
        exact (intact_of_fail hs hcall hcourse rfl).resolve_left hunrecorded

end Runs

def cancelledAfterPiece : List Act := [.send [97], .resolve (.failed .cancelled), .ask]

theorem error_lasts_cancelled :
    ((start 1 0 []).run cancelledAfterPiece).later [.look] = [.fail .cancelled] ∧
      ∀ more, ∀ pull ∈ ((start 1 0 []).run (cancelledAfterPiece ++ [.look])).later more,
        pull = .fail .cancelled :=
  ⟨by decide, (error_lasts_iff_recorded 1 0 [] cancelledAfterPiece (by decide)).1 (by decide)⟩

/-- The body is complete, and the coded data is cut off after two octets. -/
def cutOff : List Act :=
  [.send [31, 139], .resolve .complete, .shut, .ask] ++ List.replicate 6 .look

/-- The error of a decoder at the end of the data is forgotten, and the body seems complete. -/
theorem error_forgotten :
    ((start 1 0 [.new .gzip]).run cutOff).later [.look] = [.fail (.io Decoder.damaged)] ∧
      ((start 1 0 [.new .gzip]).run (cutOff ++ [.look])).later [.ask, .look] = [.ended] := by
  decide

end Handover
end HttpClient
