import HttpClient.Proofs.Response.Messages
import HttpClient.Proofs.Response.TightCuts
set_option autoImplicit false

/-!
Where the head of a response ends. The octets say so by themselves: after the status line everything
up to the next empty line is the head, and an interim head has another one after it. A parser that
awaits a head comes to the same end, however the octets reach it, and what comes after the head
makes no difference to it.
-/

namespace HttpClient

namespace ResponseHead

/-- Goes on to the end of the final head, line by line, after this status line or before one. -/
def finalAfter (start : Option StatusLine) (bs : Bytes) : Option (Nat × Bytes) :=
  match _h : Bytes.splitLine bs with
  | none => none
  | some (line, rest) =>
    match start with
    | none => match StatusLine.read line with
      | .error _ => none
      | .ok start => finalAfter (some start) rest
    | some start =>
      if line ≠ [] then finalAfter (some start) rest
      else if Parser.isInterim start.status then finalAfter none rest
      else some (start.status, rest)
termination_by bs.length
decreasing_by
  all_goals
    have := Bytes.length_of_splitLine _h
    omega

def final? (bs : Bytes) : Option (Nat × Bytes) := finalAfter none bs

section Lines

variable {start : StatusLine} {bs line rest : Bytes}

theorem finalAfter_unfinished (h : Bytes.splitLine bs = none) (start : Option StatusLine) :
    finalAfter start bs = none := by
  rw [finalAfter]
  split <;> simp_all

theorem finalAfter_startLine (h : Bytes.splitLine bs = some (line, rest)) :
    finalAfter none bs = match StatusLine.read line with
      | .error _ => none
      | .ok start => finalAfter (some start) rest := by
  rw [finalAfter]
  split <;> simp_all

theorem finalAfter_fieldLine (h : Bytes.splitLine bs = some (line, rest)) (hl : line ≠ []) :
    finalAfter (some start) bs = finalAfter (some start) rest := by
  rw [finalAfter]
  split <;> simp_all

theorem finalAfter_emptyLine (h : Bytes.splitLine bs = some ([], rest)) :
    finalAfter (some start) bs =
      if Parser.isInterim start.status then finalAfter none rest
      else some (start.status, rest) := by
  rw [finalAfter]
  split <;> simp_all

end Lines

theorem finalAfter_of_rest {start : Option StatusLine} {bs rest : Bytes} {status : Nat}
    (h : finalAfter start bs = some (status, rest)) :
    ∃ used, bs = used ++ rest ∧
      ∀ other, finalAfter start (used ++ other) = some (status, other) := by
  fun_induction finalAfter start bs with
  | case1 => cases h
  | case2 => cases h
  | case3 bs line after hs start hread ih =>
    obtain ⟨used, rfl, hall⟩ := ih h
    refine ⟨line ++ Bytes.crlf ++ used, ?_, fun other => ?_⟩
    · rw [Bytes.eq_of_splitLine hs, List.append_assoc _ used]
    · rw [List.append_assoc, finalAfter_startLine (Bytes.splitLine_of_rest hs _), hread]
      exact hall other
  | case4 bs line after hs start hl ih =>
    obtain ⟨used, rfl, hall⟩ := ih h
    refine ⟨line ++ Bytes.crlf ++ used, ?_, fun other => ?_⟩
    · rw [Bytes.eq_of_splitLine hs, List.append_assoc _ used]
    · rw [List.append_assoc, finalAfter_fieldLine (Bytes.splitLine_of_rest hs _) hl]
      exact hall other
  | case5 bs line after hs start hl hi ih =>
    rw [Decidable.of_not_not hl] at hs
    obtain ⟨used, rfl, hall⟩ := ih h
    refine ⟨[] ++ Bytes.crlf ++ used, ?_, fun other => ?_⟩
    · rw [Bytes.eq_of_splitLine hs, List.append_assoc _ used]
    · rw [List.append_assoc, finalAfter_emptyLine (Bytes.splitLine_of_rest hs _), if_pos hi]
      exact hall other
  | case6 bs line after hs start hl hi =>
    rw [Decidable.of_not_not hl] at hs
    cases h
    refine ⟨[] ++ Bytes.crlf, Bytes.eq_of_splitLine hs, fun other => ?_⟩
    rw [finalAfter_emptyLine (Bytes.splitLine_of_rest hs _), if_neg hi]

theorem final?_append {bs rest : Bytes} {status : Nat} (h : final? bs = some (status, rest))
    (more : Bytes) : final? (bs ++ more) = some (status, rest ++ more) := by
  obtain ⟨used, rfl, hall⟩ := finalAfter_of_rest h
  rw [List.append_assoc]
  exact hall (rest ++ more)

theorem length_of_final? {before last rest : Bytes} {status : Nat} (hb : final? before = none)
    (h : final? (before ++ last) = some (status, rest)) : rest.length < last.length := by
  obtain ⟨used, heq, hall⟩ := finalAfter_of_rest h
  rcases List.append_eq_append_iff.1 heq with ⟨tail, rfl, rfl⟩ | ⟨tail, rfl, rfl⟩
  · cases tail with
    | nil =>
      have hall := hall []
      rw [List.append_nil, List.append_nil] at hall
      exact absurd (hb.symm.trans hall) (by simp)
    | cons b tail =>
      simp only [List.cons_append, List.length_cons, List.length_append]
      omega
  · exact absurd (hb.symm.trans (hall tail)) (by simp)

end ResponseHead

/-- Errors that differ at most in how much of a head had come when it was found too long. -/
inductive ParseError.Like : ParseError → ParseError → Prop where
  | refl (error : ParseError) : Like error error
  | size (m n limit : Nat) : Like (.headTooLarge m limit) (.headTooLarge n limit)

namespace Parser

def awaited (p : Parser) : Option (Nat × Bytes) :=
  match p.phase with
  | .statusLine => ResponseHead.finalAfter none p.buffer
  | .fieldLines start _ _ => ResponseHead.finalAfter (some start) p.buffer
  | _ => none

section Awaited

variable {p q : Parser} {phase : Phase} {rest : Bytes} {e : Event}

theorem readsLine_of_head (hp : phase.part = .head) : phase.readsLine = true := by
  unfold Phase.part at hp
  split at hp <;> first | rfl | cases hp

theorem splitLine_of_wait (hp : p.phase.readsLine = true) (h : p.move = .wait phase) :
    Bytes.splitLine p.buffer = none := by
  cases hs : Bytes.splitLine p.buffer with
  | none => rfl
  | some result => exact absurd h (move_ne_wait_of_line hp hs)

theorem awaited_of_unfinished (hs : Bytes.splitLine p.buffer = none) : p.awaited = none := by
  unfold awaited
  split
  · exact ResponseHead.finalAfter_unfinished hs _
  · exact ResponseHead.finalAfter_unfinished hs _
  · rfl

theorem awaited_of_next (hp : p.phase.part = .head) (h : p.move = .next phase rest) :
    Parser.awaited { p with phase := phase, buffer := rest } = p.awaited := by
  cases hq : p.phase with
  | statusLine =>
    simp only [move, hq, moveStatusLine, headTooLarge] at h
    split at h
    · split at h <;> cases h
    next line after hs =>
    split at h
    · cases h
    cases hread : StatusLine.read line with
    | error cause => simp [hread] at h
    | ok start =>
      simp only [hread] at h
      cases h
      simp only [awaited, hq, ResponseHead.finalAfter_startLine hs, hread]
  | fieldLines start fields used =>
    simp only [move, hq, moveFieldLines, endHead, headTooLarge] at h
    split at h
    · split at h <;> cases h
    next line after hs =>
    split at h
    · cases h
    split at h
    next hempty =>
      rw [List.isEmpty_iff.1 hempty] at hs
      split at h
      next hi =>
        cases h
        simp only [awaited, hq, ResponseHead.finalAfter_emptyLine hs, if_pos hi]
      · split at h <;> cases h
    next hempty =>
      split at h
      · cases h
      · cases h
        simp only [awaited, hq,
          ResponseHead.finalAfter_fieldLine hs fun hl => hempty (List.isEmpty_iff.2 hl)]
  | complete trailers => cases trailers <;> simp [hq, Phase.part] at hp
  | _ => simp [hq, Phase.part] at hp

theorem awaited_of_event (hp : p.phase.part = .head) (h : p.move = .event e phase rest) :
    ∃ head bodiless, e = .head head bodiless ∧ p.awaited = some (head.start.status, rest) := by
  cases hq : p.phase with
  | statusLine =>
    simp only [move, hq, moveStatusLine, headTooLarge] at h
    repeat' split at h
    all_goals cases h
  | fieldLines start fields used =>
    simp only [move, hq, moveFieldLines, endHead, headTooLarge] at h
    split at h
    · split at h <;> cases h
    next line after hs =>
    split at h
    · cases h
    split at h
    next hempty =>
      rw [List.isEmpty_iff.1 hempty] at hs
      split at h
      · cases h
      next hi =>
        split at h
        · cases h
        · cases h
          refine ⟨_, _, rfl, ?_⟩
          simp only [awaited, hq, ResponseHead.finalAfter_emptyLine hs, if_neg hi]
    next hempty => split at h <;> cases h
  | complete trailers => cases trailers <;> simp [hq, Phase.part] at hp
  | _ => simp [hq, Phase.part] at hp

theorem headTooLarge_mono {l : Limits} {m n : Nat} (h : l.headTooLarge m = true) (hmn : m ≤ n) :
    l.headTooLarge n = true := by
  rw [headTooLarge_iff] at h ⊢
  omega

def Long (p : Parser) (n : Nat) : Prop :=
  match Bytes.splitLine p.buffer with
  | none => n ≤ p.buffer.length
  | some (line, _) => n ≤ line.length + 2

theorem long_append (hs : Bytes.splitLine p.buffer = none) (more : Bytes) :
    (p.append more).Long p.buffer.length := by
  unfold Long
  split
  · simp [append]
  next line rest hl =>
    rcases Bytes.of_splitLine_append hs hl with ⟨tail, rfl⟩ | ⟨hb, -⟩
    · simp only [List.length_append]
      omega
    · simp [hb]

theorem moveStatusLine_of_long {n : Nat} (hn : p.Long n) (h : p.limits.headTooLarge n = true) :
    ∃ size, p.moveStatusLine = p.headTooLarge size := by
  cases hs : Bytes.splitLine p.buffer with
  | none =>
    simp only [Long, hs] at hn
    simp only [moveStatusLine, hs, headTooLarge_mono h hn]
    exact ⟨_, rfl⟩
  | some result =>
    simp only [Long, hs] at hn
    simp only [moveStatusLine, hs, headTooLarge_mono h hn]
    exact ⟨_, rfl⟩

theorem moveFieldLines_of_long {n used : Nat} (hn : p.Long n)
    (h : p.limits.headTooLarge (used + n) = true) (start : StatusLine) (fields : Fields) :
    ∃ size, p.moveFieldLines start fields used = p.headTooLarge size := by
  cases hs : Bytes.splitLine p.buffer with
  | none =>
    simp only [Long, hs] at hn
    simp only [moveFieldLines, hs, headTooLarge_mono h (Nat.add_le_add_left hn used)]
    exact ⟨_, rfl⟩
  | some result =>
    simp only [Long, hs] at hn
    have := headTooLarge_mono h (Nat.add_le_add_left hn used)
    rw [← Nat.add_assoc] at this
    simp only [moveFieldLines, hs, this]
    exact ⟨_, rfl⟩

theorem like_of_pendingError {error : ParseError} (hp : p.phase.part = .head)
    (hs : Bytes.splitLine p.buffer = none) (h : p.pendingError = some error) (more : Bytes) :
    ∃ error', (p.append more).move = .fail error' ∧ error.Like error' := by
  cases hq : p.phase with
  | statusLine =>
    simp only [pendingError, hq, sectionError] at h
    split at h <;> cases h
    obtain ⟨size, hm⟩ := moveStatusLine_of_long (long_append hs more) ‹_›
    have hphase : (p.append more).phase = .statusLine := hq
    have hmove : (p.append more).move = (p.append more).moveStatusLine := by
      simp only [move, hphase]
    exact ⟨_, hmove.trans hm, .size ..⟩
  | fieldLines start fields used =>
    simp only [pendingError, hq, sectionError] at h
    split at h <;> cases h
    obtain ⟨size, hm⟩ := moveFieldLines_of_long (long_append hs more) ‹_› start fields
    have hphase : (p.append more).phase = .fieldLines start fields used := hq
    have hmove : (p.append more).move = (p.append more).moveFieldLines start fields used := by
      simp only [move, hphase]
    exact ⟨_, hmove.trans hm, .size ..⟩
  | complete trailers => cases trailers <;> simp [hq, Phase.part] at hp
  | _ => simp [hq, Phase.part] at hp

/-- While a head is awaited, what has come either says nothing yet or settles something that the
rest cannot change. -/
inductive Foretells (p : Parser) (more : Bytes) : Prop where
  | nothing {q : Parser} (now : p.advance = (.ok none, q)) (part : q.phase.part = .head)
      (unended : p.awaited = none)
      (later : (p.append more).advance = (q.append more).advance)
  | head {head : ResponseHead} {bodiless : Bool} {q : Parser}
      (now : p.advance = (.ok (some (.head head bodiless)), q))
      (ends : p.awaited = some (head.start.status, q.buffer))
      (later : (p.append more).advance = (.ok (some (.head head bodiless)), q.append more))
  | fault {error error' : ParseError} {q q' : Parser} (now : p.advance = (.error error, q))
      (later : (p.append more).advance = (.error error', q')) (like : error.Like error')

theorem foretells_of_next (hp : p.phase.part = .head) (h : p.move = .next phase rest)
    {more : Bytes} (hf : Foretells { p with phase := phase, buffer := rest } more) :
    p.Foretells more := by
  obtain ⟨used, hb, hm⟩ := move_next_of_rest h
  have hmore : (p.append more).move = .next phase (rest ++ more) := by
    rw [append, hb, List.append_assoc]
    exact hm (rest ++ more)
  have hnow := advance_of_next h
  have hlater : (p.append more).advance =
      (Parser.append { p with phase := phase, buffer := rest } more).advance :=
    advance_of_next hmore
  cases hf with
  | nothing now part unended later =>
    exact .nothing (hnow.trans now) part ((awaited_of_next hp h).symm.trans unended)
      (hlater.trans later)
  | head now ends later =>
    exact .head (hnow.trans now) ((awaited_of_next hp h).symm.trans ends) (hlater.trans later)
  | fault now later like => exact .fault (hnow.trans now) (hlater.trans later) like

theorem foretells (hp : p.phase.part = .head) (more : Bytes) : p.Foretells more := by
  fun_induction advance p with
  | case1 p phase hm =>
    have hs := splitLine_of_wait (readsLine_of_head hp) hm
    have hphase : phase = p.phase := by
      rcases move_wait_cases hm with h | ⟨h, -⟩
      · exact h
      · simp [h, Phase.part] at hp
    subst hphase
    exact .nothing (advance_of_wait hm) hp (awaited_of_unfinished hs) rfl
  | case2 p phase rest hm ih => exact foretells_of_next hp hm (ih (next_of_head hp hm))
  | case3 p e phase rest hm =>
    obtain ⟨head, bodiless, rfl, ha⟩ := awaited_of_event hp hm
    have hmore : (p.append more).move = .event (.head head bodiless) phase (rest ++ more) := by
      rcases move_event_cases hm with ⟨used, hb, hall⟩ | ⟨he, -⟩
      · rw [append, hb, List.append_assoc]
        exact hall (rest ++ more)
      · cases he
    exact .head (advance_of_event hm) ha (advance_of_event hmore)
  | case4 p error hm =>
    rcases move_fail_cases hm with hall | ⟨-, hs, herror⟩
    · exact .fault (advance_of_fail hm) (advance_of_fail (hall more)) (.refl error)
    · obtain ⟨error', hmore, hlike⟩ := like_of_pendingError hp hs herror more
      exact .fault (advance_of_fail hm) (advance_of_fail hmore) hlike

end Awaited

end Parser
end HttpClient
