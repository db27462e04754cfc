import HttpClient.Delivery.Reader
import HttpClient.Proofs.Coding.Decoder
set_option autoImplicit false

/-!
Reading a coded body to its end. If each decoder undoes its coding however the data is divided, then
the decoders of a reader undo all codings one after another, however the data is divided and
whenever it comes.
-/

namespace HttpClient

namespace Decoder

inductive Chain : List Decoder → Bytes → Bytes → Prop where
  | nil (data : Bytes) : Chain [] data data
  | cons {d : Decoder} {ds : List Decoder} {coded between plain : Bytes}
      (head : d.Undoes coded between) (tail : Chain ds between plain) : Chain (d :: ds) coded plain

section Undoes

variable {d : Decoder} {ds : List Decoder} {piece more coded plain : Bytes}

theorem Undoes.decode (h : d.Undoes (piece ++ more) plain) :
    ∃ out d' left, d.decode piece = (.ok out, d') ∧ plain = out ++ left ∧ d'.Undoes more left := by
  have hrun (pieces : List Bytes) (hp : pieces.flatten = more) :
      d.run (piece :: pieces) = .ok plain := h (piece :: pieces) (by rw [List.flatten_cons, hp])
  simp only [run] at hrun
  rcases hd : d.decode piece with ⟨failure | out, d'⟩
  · simp only [hd] at hrun
    cases hrun [more] (List.flatten_singleton)
  · simp only [hd] at hrun
    have hleft (pieces : List Bytes) (hp : pieces.flatten = more) :
        ∃ left, d'.run pieces = .ok left ∧ out ++ left = plain := by
      have := hrun pieces hp
      cases hr : d'.run pieces with
      | error failure => rw [hr] at this; cases this
      | ok left =>
        rw [hr] at this
        cases this
        exact ⟨left, rfl, rfl⟩
    obtain ⟨left, -, rfl⟩ := hleft [more] List.flatten_singleton
    refine ⟨out, d', left, rfl, rfl, fun pieces hp => ?_⟩
    obtain ⟨left', hr, heq⟩ := hleft pieces hp
    rwa [List.append_cancel_left heq] at hr

theorem Undoes.finish (h : d.Undoes [] plain) : ∃ d', d.finish = (.ok plain, d') :=
  ⟨d.finish.2, Prod.ext (h [] rfl) rfl⟩

theorem Undoes.finishAfter (h : d.Undoes piece plain) :
    ∃ d', d.finishAfter piece = (.ok plain, d') := by
  unfold Decoder.finishAfter
  split
  · next he =>
    rw [List.isEmpty_iff.1 he] at h
    exact h.finish
  · rw [← List.append_nil piece] at h
    obtain ⟨out, d', left, hd, rfl, hleft⟩ := h.decode
    obtain ⟨d'', hf⟩ := hleft.finish
    simp only [hd, hf]
    exact ⟨d'', rfl⟩

theorem Chain.decodeAll (h : Chain ds (piece ++ more) plain) :
    ∃ out ds' left, Decoder.decodeAll piece ds = (.ok out, ds') ∧ plain = out ++ left ∧
      Chain ds' more left := by
  induction ds generalizing piece more plain with
  | nil =>
    cases h
    exact ⟨piece, [], more, rfl, rfl, .nil more⟩
  | cons d ds ih =>
    cases h with
    | cons head tail =>
    obtain ⟨out, d', left, hd, rfl, hhead⟩ := head.decode
    obtain ⟨out', ds', left', hds, rfl, htail⟩ := ih tail
    simp only [Decoder.decodeAll, hd, hds]
    exact ⟨out', d' :: ds', left', rfl, rfl, .cons hhead htail⟩

theorem Chain.finishAll (h : Chain ds coded plain) :
    ∃ ds', Decoder.finishAll coded ds = (.ok plain, ds') := by
  induction h with
  | nil data => exact ⟨[], rfl⟩
  | cons head tail ih =>
    obtain ⟨d', hd⟩ := head.finishAfter
    obtain ⟨ds', hds⟩ := ih
    simp only [Decoder.finishAll, hd, hds]
    exact ⟨d' :: ds', rfl⟩

end Undoes

end Decoder

/-- A body that is sent and read, with what was sent and what was got so far. -/
structure Reading where
  reader : Reader
  channel : Channel
  sent : Bytes
  got : Bytes
  ended : Option (Except Failure Unit)

namespace Reading

inductive Turn where
  | send (data : Bytes)
  | complete
  | pull

def start (capacity source : Nat) (decoders : List Decoder) : Reading :=
  ⟨.ofSource source decoders, .ofCapacity capacity, [], [], none⟩

def pulled (s : Reading) : Pull × Reader × Channel → Reading
  | (.wait, r, c) => { s with reader := r, channel := c }
  | (.data piece, r, c) => { s with reader := r, channel := c, got := s.got ++ piece }
  | (.ended, r, c) => { s with reader := r, channel := c, ended := some (.ok ()) }
  | (.fail failure, r, c) => { s with reader := r, channel := c, ended := some (.error failure) }

def turn (s : Reading) : Turn → Reading
  | .send data =>
    if s.channel.sending then
      match s.channel.send data with
      | .sent c => { s with channel := c, sent := s.sent ++ data }
      | _ => s
    else s
  | .complete => { s with channel := s.channel.complete }
  | .pull => if s.ended.isSome then s else s.pulled (s.reader.pull s.channel)

def run (s : Reading) (turns : List Turn) : Reading := turns.foldl turn s

/-- What there is to come is `plain` without what was got; `rest` has not been sent. -/
inductive Sound (plain rest : Bytes) (s : Reading) : Prop where
  | reading (left : Bytes) (listening : s.reader.listening = true) (undone : s.reader.done = false)
      (unended : s.ended = none)
      (outcome : s.channel.outcome = if s.channel.sending then .pending else .complete)
      (sent : s.channel.sending = false → rest = [])
      (chain : Decoder.Chain s.reader.decoders (s.channel.queue.flatten ++ rest) left)
      (got : plain = s.got ++ left)
  | finished (done : s.reader.done = true) (outcome : s.channel.outcome = .complete)
      (sending : s.channel.sending = false) (nothing : rest = [])
      (well : ∀ result, s.ended = some result → result = .ok ()) (got : s.got = plain)

section Sound

variable {plain rest data : Bytes} {s : Reading}

theorem failure?_of_outcome {c : Channel}
    (h : c.outcome = if c.sending then .pending else .complete) : c.failure? = none := by
  unfold Channel.failure?
  rw [h]
  cases c.sending <;> rfl

theorem sound_take {r : Reader} {c : Channel} {left : Bytes} (pieces : List Bytes)
    (listening : r.listening = true) (undone : r.done = false) (unended : s.ended = none)
    (outcome : c.outcome = if c.sending then .pending else .complete)
    (sent : c.sending = false → rest = [])
    (chain : Decoder.Chain r.decoders (pieces.flatten ++ rest) left)
    (got : plain = s.got ++ left) : Sound plain rest (s.pulled (r.take c pieces)) := by
  induction pieces generalizing r left with
  | nil =>
    simp only [List.flatten_nil, List.nil_append] at chain
    simp only [Reader.take]
    cases hs : c.sending with
    | true =>
      simp only [if_true, pulled]
      rw [hs] at outcome
      exact .reading left listening undone unended (by simpa [hs] using outcome) (by simp)
        (by simpa using chain) got
    | false =>
      rw [hs] at outcome
      have hrest := sent hs
      subst hrest
      obtain ⟨ds, hfinish⟩ := chain.finishAll
      simp only [Bool.false_eq_true, if_false] at outcome
      simp only [outcome, Bool.false_eq_true, if_false, Reader.finish, hfinish]
      cases left with
      | nil =>
        simp only [pulled]
        exact .finished rfl rfl rfl rfl (by simp) (by simpa using got.symm)
      | cons b left =>
        simp only [pulled]
        exact .finished rfl rfl rfl rfl (by simp [unended]) got.symm
  | cons piece pieces ih =>
    rw [List.flatten_cons, List.append_assoc] at chain
    obtain ⟨out, ds, later, hd, rfl, hchain⟩ := chain.decodeAll
    simp only [Reader.take, hd]
    cases out with
    | nil => exact ih listening undone hchain (by simpa using got)
    | cons b out =>
      simp only [pulled]
      exact .reading later listening undone unended outcome sent hchain
        (by rw [got, List.append_assoc])

theorem Sound.pull (h : Sound plain rest s) : Sound plain rest (s.turn .pull) := by
  simp only [turn]
  cases h with
  | reading left listening undone unended outcome sent chain got =>
    simp only [unended, Option.isSome_none, Bool.false_eq_true, if_false, Reader.pull,
      failure?_of_outcome outcome, undone, listening, if_true]
    exact sound_take s.channel.queue listening undone unended outcome sent chain got
  | finished done outcome sending nothing well got =>
    cases he : s.ended with
    | some result =>
      simp only [Option.isSome_some, if_true]
      exact .finished done outcome sending nothing well got
    | none =>
      have hf : s.channel.failure? = none := by simp only [Channel.failure?, outcome]
      simp only [Option.isSome_none, Bool.false_eq_true, if_false, Reader.pull, hf, done, if_true,
        pulled]
      exact .finished done outcome sending nothing (by simp) got

theorem Sound.complete (h : Sound plain [] s) : Sound plain [] (s.turn .complete) := by
  cases h with
  | reading left listening undone unended outcome sent chain got =>
    have hresolve : s.channel.complete =
        { s.channel with outcome := .complete, sending := false } := by
      unfold Channel.complete Channel.resolve
      rw [outcome]
      cases hs : s.channel.sending <;> simp [hs] at outcome ⊢
    simp only [turn, hresolve]
    exact .reading left listening undone unended rfl (fun _ => rfl) chain got
  | finished done outcome sending nothing well got =>
    have hresolve : s.channel.complete = { s.channel with sending := false } := by
      simp only [Channel.complete, Channel.resolve, outcome]
    simp only [turn, hresolve]
    exact .finished done outcome rfl rfl well got

theorem Sound.send {c : Channel} (h : Sound plain (data ++ rest) s)
    (hs : s.channel.send data = .sent c) (hsending : s.channel.sending = true) :
    Sound plain rest { s with channel := c, sent := s.sent ++ data } := by
  have hqueue := Channel.queue_of_send hs
  have hc : c = { s.channel with queue := c.queue } := by
    unfold Channel.send at hs
    repeat' split at hs
    all_goals cases hs
    all_goals rfl
  cases h with
  | reading left listening undone unended outcome sent chain got =>
    refine .reading left listening undone unended (by rw [hc]; exact outcome) ?_ ?_ got
    · intro hclosed
      rw [hc] at hclosed
      cases hsending.symm.trans hclosed
    · simpa [hqueue] using chain
  | finished done outcome sending nothing well got => cases hsending.symm.trans sending

theorem sent_pull (s : Reading) : (s.turn .pull).sent = s.sent := by
  simp only [turn]
  split
  · rfl
  · unfold pulled
    split <;> rfl

theorem sent_turn (s : Reading) (t : Turn) : ∃ more, (s.turn t).sent = s.sent ++ more := by
  cases t with
  | send data =>
    simp only [turn]
    repeat' split
    · exact ⟨data, rfl⟩
    all_goals exact ⟨[], (List.append_nil _).symm⟩
  | complete => exact ⟨[], (List.append_nil _).symm⟩
  | pull => exact ⟨[], by rw [sent_pull, List.append_nil]⟩

theorem sent_run (s : Reading) (turns : List Turn) :
    ∃ more, (s.run turns).sent = s.sent ++ more := by
  induction turns generalizing s with
  | nil => exact ⟨[], (List.append_nil _).symm⟩
  | cons t turns ih =>
    obtain ⟨first, hfirst⟩ := s.sent_turn t
    obtain ⟨later, hlater⟩ := ih (s.turn t)
    exact ⟨first ++ later, by rw [run, List.foldl_cons, ← run, hlater, hfirst, List.append_assoc]⟩

theorem sending_of_pull (r : Reader) (c : Channel) : (r.pull c).2.2.sending = c.sending := by
  have htake (pieces : List Bytes) (r : Reader) : (r.take c pieces).2.2.sending = c.sending := by
    induction pieces generalizing r with
    | nil =>
      simp only [Reader.take]
      split
      · rfl
      · split <;> rfl
    | cons piece pieces ih =>
      simp only [Reader.take]
      split
      · rfl
      · exact ih _
      · rfl
  unfold Reader.pull
  split
  · rfl
  · split
    · rfl
    · split
      · exact htake _ r
      · rfl

theorem closed_turn (h : s.channel.sending = false) (t : Turn) :
    (s.turn t).channel.sending = false ∧ (s.turn t).sent = s.sent := by
  cases t with
  | send data => simp [turn, h]
  | complete =>
    refine ⟨?_, rfl⟩
    simp only [turn, Channel.complete, Channel.resolve]
    split <;> rfl
  | pull =>
    refine ⟨?_, sent_pull s⟩
    have hpull := sending_of_pull s.reader s.channel
    simp only [turn]
    split
    · exact h
    · unfold pulled
      split
      all_goals
        next hp =>
        rw [hp] at hpull
        exact hpull.trans h

theorem closed_run (h : s.channel.sending = false) (turns : List Turn) :
    (s.run turns).channel.sending = false ∧ (s.run turns).sent = s.sent := by
  induction turns generalizing s with
  | nil => exact ⟨h, rfl⟩
  | cons t turns ih =>
    obtain ⟨hsending, hsent⟩ := closed_turn h t
    obtain ⟨hlast, hall⟩ := ih hsending
    exact ⟨hlast, hall.trans hsent⟩

theorem sound_run (h : Sound plain rest s) (turns : List Turn)
    (hsent : (s.run turns).sent = s.sent ++ rest) : Sound plain [] (s.run turns) := by
  induction turns generalizing s rest with
  | nil =>
    have hrest : rest = [] := by simpa [run] using hsent
    exact hrest ▸ h
  | cons t turns ih =>
    have hrun : s.run (t :: turns) = (s.turn t).run turns := rfl
    rw [hrun] at hsent ⊢
    obtain ⟨later, hlater⟩ := sent_run (s.turn t) turns
    refine ih ?_ hlater
    rw [hlater] at hsent
    cases t with
    | pull =>
      rw [sent_pull] at hsent
      rw [List.append_cancel_left hsent]
      exact h.pull
    | complete =>
      have hclosed : (s.turn .complete).channel.sending = false := by
        simp only [turn, Channel.complete, Channel.resolve]
        split <;> rfl
      rw [(closed_run hclosed turns).2, List.self_eq_append_right] at hlater
      subst hlater
      have hnothing : rest = [] := by simpa [turn] using hsent
      subst hnothing
      exact h.complete
    | send data =>
      cases hs : s.channel.sending with
      | false =>
        simp only [turn, hs, Bool.false_eq_true, if_false] at hsent ⊢
        rw [List.append_cancel_left hsent]
        exact h
      | true =>
        simp only [turn, hs, if_true] at hsent ⊢
        cases hc : s.channel.send data with
        | sent c =>
          simp only [hc, List.append_assoc] at hsent ⊢
          rw [← List.append_cancel_left hsent] at h
          exact h.send hc hs
        | full =>
          simp only [hc] at hsent ⊢
          rw [List.append_cancel_left hsent]
          exact h
        | refused =>
          simp only [hc] at hsent ⊢
          rw [List.append_cancel_left hsent]
          exact h

def left (s : Reading) : Nat :=
  if s.ended.isSome then 0 else if s.reader.done then 1 else s.channel.queue.length + 2

theorem left_take {r : Reader} {c : Channel} (pieces : List Bytes) (undone : r.done = false)
    (unended : s.ended = none) (hs : c.sending = false) :
    left (s.pulled (r.take c pieces)) < pieces.length + 2 := by
  induction pieces generalizing r with
  | nil =>
    simp only [Reader.take, hs, Bool.false_eq_true, if_false]
    cases c.outcome with
    | complete =>
      simp only [Reader.finish]
      split <;> simp [pulled, left, unended]
    | failed failure => simp [pulled, left]
    | pending => simp [pulled, left]
  | cons piece pieces ih =>
    simp only [Reader.take]
    split
    · simp [pulled, left]
    · exact Nat.lt_succ_of_lt (ih undone)
    · simp [pulled, left, unended, undone]

theorem left_pull (h : Sound plain rest s) (hs : s.channel.sending = false) :
    left (s.turn .pull) ≤ s.left - 1 := by
  cases h with
  | reading left' listening undone unended outcome sent chain got =>
    have htake := left_take s.channel.queue undone unended hs
    have hleft : s.left = s.channel.queue.length + 2 := by simp [left, unended, undone]
    have hturn : s.turn .pull = s.pulled (s.reader.take s.channel s.channel.queue) := by
      simp only [turn, unended, Option.isSome_none, Bool.false_eq_true, if_false, Reader.pull,
        failure?_of_outcome outcome, undone, listening, if_true]
    rw [hturn, hleft]
    omega
  | finished done outcome sending nothing well got =>
    have hf : s.channel.failure? = none := by simp only [Channel.failure?, outcome]
    cases he : s.ended with
    | some result => simp [turn, he, left]
    | none => simp [turn, he, Reader.pull, hf, done, pulled, left]

theorem ended_of_pulls (h : Sound plain [] s) (hs : s.channel.sending = false) (n : Nat)
    (hn : s.left ≤ n) : (s.run (List.replicate n .pull)).ended = some (.ok ()) := by
  induction n generalizing s with
  | zero =>
    cases h with
    | reading left' listening undone unended outcome sent chain got =>
      simp [left, unended, undone] at hn
    | finished done outcome sending nothing well got =>
      cases he : s.ended with
      | none => simp [left, he, done] at hn
      | some result => simp [run, he, well result he]
  | succ n ih =>
    have hleft := left_pull h hs
    exact ih h.pull (closed_turn hs .pull).1 (by omega)

end Sound

theorem sound_start {plain coded : Bytes} {decoders : List Decoder}
    (h : Decoder.Chain decoders coded plain) (capacity source : Nat) :
    Sound plain coded (start capacity source decoders) :=
  .reading plain rfl rfl rfl rfl (fun hclosed => nomatch hclosed) h rfl

end Reading

theorem Reading.Sound.got_of_ended {plain : Bytes} {s : Reading} {result : Except Failure Unit}
    (h : Sound plain [] s) (hended : s.ended = some result) :
    result = .ok () ∧ s.got = plain := by
  cases h with
  | reading left listening undone unended =>
    rw [unended] at hended
    cases hended
  | finished done outcome sending nothing well got => exact ⟨well result hended, got⟩

theorem Reading.left_le (s : Reading) : s.left ≤ s.channel.queue.length + 2 := by
  unfold left
  split
  · omega
  · split <;> omega

/-- Whoever reads a body of this coded data to its end gets the plain data and no failure, however
the data is divided and whenever its pieces come; and after the sender has left, so many pulls get
to the end. -/
def Decoder.Recovers (decoders : List Decoder) (coded plain : Bytes) : Prop :=
  ∀ (capacity source : Nat) (turns : List Reading.Turn) (s : Reading),
    (Reading.start capacity source decoders).run turns = s → s.sent = coded →
    (∀ result, s.ended = some result → result = .ok () ∧ s.got = plain) ∧
    (s.channel.sending = false → ∀ last,
      s.run (List.replicate (s.channel.queue.length + 2) .pull) = last →
      last.ended = some (.ok ()) ∧ last.got = plain)

theorem Decoder.Chain.recovers {decoders : List Decoder} {coded plain : Bytes}
    (h : Chain decoders coded plain) : Recovers decoders coded plain := by
  rintro capacity source turns s rfl hsent
  have hsound := Reading.sound_run (Reading.sound_start h capacity source) turns hsent
  refine ⟨fun result => hsound.got_of_ended, ?_⟩
  rintro hclosed _ rfl
  have hended := Reading.ended_of_pulls hsound hclosed _ (Reading.left_le _)
  refine ⟨hended, ((Reading.sound_run hsound _ ?_).got_of_ended hended).2⟩
  rw [(Reading.closed_run hclosed _).2, List.append_nil]

end HttpClient
