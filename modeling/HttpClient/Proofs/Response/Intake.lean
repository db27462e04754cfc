import HttpClient.Proofs.Response.ChunkGrammar
set_option autoImplicit false

/-!
What each move takes in, phase by phase: a status line, a field line, the empty line after them, a
size line, octets of a body. Each is named by the grammar, together with the bounds it has passed.
-/

namespace HttpClient

namespace Limits

/-- So many octets and fields are no more than a head, or trailers, may have. -/
structure Allows (l : Limits) (octets fields : Nat) : Prop where
  octets : l.headBytes ≠ 0 → octets ≤ l.headBytes
  fields : ∀ n, l.fieldCount = some n → fields ≤ n

def AllowsLine (l : Limits) (line : Bytes) : Prop := ∀ n, l.chunkLine = some n → line.length ≤ n

variable {l : Limits} {size : Nat}

theorem headTooLarge_eq_false_iff :
    l.headTooLarge size = false ↔ (l.headBytes ≠ 0 → size ≤ l.headBytes) := by
  rw [Bool.eq_false_iff, ne_eq, Parser.headTooLarge_iff]
  omega

theorem exceeded_eq_none_iff {bound : Option Nat} :
    exceeded bound size = none ↔ ∀ n, bound = some n → size ≤ n := by
  cases bound <;> simp [exceeded]

theorem allows_of_checks {octets fields : Nat} (hsize : l.headTooLarge octets = false)
    (hcount : exceeded l.fieldCount fields = none) : l.Allows octets fields :=
  ⟨headTooLarge_eq_false_iff.1 hsize, exceeded_eq_none_iff.1 hcount⟩

theorem allows_empty (l : Limits) : l.Allows 0 0 :=
  ⟨fun _ => Nat.zero_le _, fun _ _ => Nat.zero_le _⟩

end Limits

namespace Parser

variable {p : Parser} {phase : Phase} {rest : Bytes} {e : Event}

theorem addField_eq_ok {fields fields' : Fields} {line : Bytes}
    (h : p.addField fields line = .ok fields') : ∃ l : FieldLine, l.line = line ∧
      fields' = fields.push l.field ∧
      Limits.exceeded p.limits.fieldCount (fields.count + 1) = none := by
  unfold addField at h
  split at h
  · cases h
  next hcount =>
  split at h
  · cases h
  next field hread =>
    cases h
    obtain ⟨l, rfl, hline⟩ := Field.read_sound hread
    exact ⟨l, hline, rfl, hcount⟩

theorem next_of_statusLine (hp : p.phase = .statusLine) (h : p.move = .next phase rest) :
    ∃ (start : StatusLine) (line : Bytes), start.Valid ∧ start.Written line ∧
      p.buffer = line ++ Bytes.crlf ++ rest ∧
      p.limits.headTooLarge (line ++ Bytes.crlf).length = false ∧
      phase = .fieldLines start .empty (line ++ Bytes.crlf).length := by
  simp only [move, hp, moveStatusLine, headTooLarge] at h
  split at h
  · split at h <;> cases h
  next line after hs =>
  split at h
  · cases h
  next hsize =>
  split at h
  · cases h
  next start hread =>
    cases h
    obtain ⟨valid, written⟩ := StatusLine.read_sound hread
    exact ⟨start, line, valid, written, Bytes.eq_of_splitLine hs, by simpa [Bytes.crlf] using hsize,
      by simp [Bytes.crlf]⟩

theorem ne_event_of_statusLine (hp : p.phase = .statusLine) : p.move ≠ .event e phase rest := by
  intro h
  simp only [move, hp, moveStatusLine, headTooLarge] at h
  repeat' split at h
  all_goals cases h

variable {start : StatusLine} {fields : Fields} {used : Nat}

theorem next_of_fieldLines (hp : p.phase = .fieldLines start fields used)
    (h : p.move = .next phase rest) :
    (∃ l : FieldLine, p.buffer = l.bytes ++ rest ∧
      p.limits.Allows (used + l.bytes.length) (fields.count + 1) ∧
      phase = .fieldLines start (fields.push l.field) (used + l.bytes.length)) ∨
    isInterim start.status = true ∧ p.buffer = Bytes.crlf ++ rest ∧
      p.limits.headTooLarge (used + 2) = false ∧ phase = .statusLine := by
  simp only [move, hp, moveFieldLines, endHead, headTooLarge] at h
  split at h
  · split at h <;> cases h
  next line after hs =>
  split at h
  · cases h
  next hsize =>
  split at h
  next hempty =>
    rw [List.isEmpty_iff.1 hempty] at hs hsize
    split at h
    next hinterim =>
      cases h
      exact .inr ⟨hinterim, Bytes.eq_of_splitLine hs, by simpa using hsize, rfl⟩
    next => split at h <;> cases h
  next hempty =>
    split at h
    · cases h
    next fields' hadd =>
      cases h
      obtain ⟨l, rfl, rfl, hcount⟩ := addField_eq_ok hadd
      have hlength : used + l.line.length + 2 = used + l.bytes.length := by
        simp [FieldLine.bytes, Bytes.crlf, Nat.add_assoc]
      rw [hlength] at hsize ⊢
      have allows := Limits.allows_of_checks (Bool.eq_false_iff.2 hsize) hcount
      exact .inl ⟨l, Bytes.eq_of_splitLine hs, allows, rfl⟩

theorem event_of_fieldLines (hp : p.phase = .fieldLines start fields used)
    (h : p.move = .event e phase rest) :
    isInterim start.status = false ∧ p.buffer = Bytes.crlf ++ rest ∧
      p.limits.headTooLarge (used + 2) = false ∧ ∃ (bodiless : Bool) (framing : Framing),
        e = .head ⟨start, fields⟩ bodiless ∧
        Framing.resolve fields (p.noBody start.status) = .ok framing ∧
        phase = bodyPhase framing := by
  simp only [move, hp, moveFieldLines, endHead, headTooLarge] at h
  split at h
  · split at h <;> cases h
  next line after hs =>
  split at h
  · cases h
  next hsize =>
  split at h
  next hempty =>
    rw [List.isEmpty_iff.1 hempty] at hs hsize
    split at h
    next => cases h
    next hinterim =>
      split at h
      · cases h
      next framing hresolve =>
        cases h
        exact ⟨by simpa using hinterim, Bytes.eq_of_splitLine hs, by simpa using hsize, _, framing,
          rfl, hresolve, rfl⟩
  next => split at h <;> cases h

theorem event_of_takeBody {left : Nat} {later : Nat → Phase} {wait : Phase}
    (h : p.takeBody left later wait = .event e phase rest) : ∃ data, e = .chunk data ∧ data ≠ [] ∧
      p.buffer = data ++ rest ∧ data.length ≤ left ∧ phase = later (left - data.length) := by
  unfold takeBody at h
  split at h
  · cases h
  next b data hdata =>
    cases h
    have hlength := congrArg List.length hdata
    rw [List.length_take] at hlength
    refine ⟨_, rfl, by simp, ?_, by omega, congrArg later (by omega)⟩
    rw [← hdata, List.take_append_drop]

theorem next_of_sizeLine {wait : Phase} {sized : Nat → Phase}
    (h : p.moveChunkLine wait sized = .next phase rest) : ∃ (line : Bytes) (size : Nat),
      Chunk.Names Bytes.isBlank line size ∧ Bytes.splitLine line = none ∧
      p.buffer = line ++ Bytes.crlf ++ rest ∧ p.limits.AllowsLine line ∧ phase = sized size := by
  unfold moveChunkLine at h
  split at h
  · split at h <;> cases h
  next line after hs =>
  split at h
  · cases h
  next hlength =>
  split at h
  · cases h
  next size hread =>
    cases h
    have hwhole := Bytes.splitLine_eq_some_iff.1 hs
    refine ⟨line, size, Chunk.readSize_eq_ok_iff.1 hread, ?_, hwhole.1,
      Limits.exceeded_eq_none_iff.1 hlength, rfl⟩
    cases hline : Bytes.splitLine line with
    | none => rfl
    | some result => simpa [Bytes.splitLine_append hline] using hwhole.2

theorem next_of_chunkEnd (hp : p.phase = .chunkEnd) (h : p.move = .next phase rest) :
    p.buffer = Bytes.crlf ++ rest ∧ phase = .chunkSize := by
  simp only [move, hp, moveChunkEnd] at h
  split at h
  · cases h
  · split at h <;> cases h
  next b c after hb =>
    split at h
    next hend =>
      cases h
      rw [hb, hend.1, hend.2]
      exact ⟨rfl, rfl⟩
    next => cases h

theorem next_of_trailers (hp : p.phase = .trailers fields used) (h : p.move = .next phase rest) :
    (∃ l : FieldLine, p.buffer = l.bytes ++ rest ∧
      p.limits.Allows (used + l.bytes.length) (fields.count + 1) ∧
      phase = .trailers (fields.push l.field) (used + l.bytes.length)) ∨
    p.buffer = Bytes.crlf ++ rest ∧ phase = .complete (some fields) := by
  simp only [move, hp, moveTrailers, headTooLarge] at h
  split at h
  · split at h <;> cases h
  next line after hs =>
  split at h
  next hempty =>
    cases h
    rw [List.isEmpty_iff.1 hempty] at hs
    exact .inr ⟨Bytes.eq_of_splitLine hs, rfl⟩
  next hempty =>
    split at h
    · cases h
    next hsize =>
    split at h
    · cases h
    next fields' hadd =>
      cases h
      obtain ⟨l, rfl, rfl, hcount⟩ := addField_eq_ok hadd
      have hlength : used + l.line.length + 2 = used + l.bytes.length := by
        simp [FieldLine.bytes, Bytes.crlf, Nat.add_assoc]
      rw [hlength] at hsize ⊢
      have allows := Limits.allows_of_checks (Bool.eq_false_iff.2 hsize) hcount
      exact .inl ⟨l, Bytes.eq_of_splitLine hs, allows, rfl⟩

theorem event_cases (h : p.move = .event e phase rest) :
    (∃ head bodiless, e = .head head bodiless) ∨
    (∃ data, e = .chunk data ∧ p.buffer = data ++ rest) ∨
    ∃ trailers, e = .complete trailers ∧ p.phase = .complete (some trailers) ∧ rest = p.buffer ∧
      phase = .complete none := by
  cases hp : p.phase with
  | statusLine => exact absurd h (ne_event_of_statusLine hp)
  | fieldLines start fields used =>
    obtain ⟨-, -, -, bodiless, -, rfl, -⟩ := event_of_fieldLines hp h
    exact .inl ⟨_, _, rfl⟩
  | counted left =>
    rw [move_counted p left hp] at h
    obtain ⟨data, he, -, hb, -⟩ := event_of_takeBody h
    exact .inr (.inl ⟨data, he, hb⟩)
  | chunkData left =>
    rw [move_chunkData p left hp] at h
    obtain ⟨data, he, -, hb, -⟩ := event_of_takeBody h
    exact .inr (.inl ⟨data, he, hb⟩)
  | untilClose =>
    rw [move_untilClose p hp] at h
    obtain ⟨data, he, -, hb, -⟩ := event_of_takeBody h
    exact .inr (.inl ⟨data, he, hb⟩)
  | complete trailers =>
    cases trailers <;> simp only [move, hp] at h <;> cases h
    exact .inr (.inr ⟨_, rfl, rfl, rfl, rfl⟩)
  | _ =>
    simp only [move, hp, moveChunkLine, moveChunkEnd, moveTrailers,
      headTooLarge] at h
    repeat' split at h
    all_goals cases h

theorem buffer_of_chunk {data : Bytes} (h : p.move = .event (.chunk data) phase rest) :
    p.buffer = data ++ rest := by
  rcases event_cases h with ⟨_, _, he⟩ | ⟨_, he, hb⟩ | ⟨_, he, -⟩ <;> cases he
  exact hb

theorem phase_of_complete {trailers : Fields}
    (h : p.move = .event (.complete trailers) phase rest) :
    p.phase = .complete (some trailers) ∧ rest = p.buffer ∧ phase = .complete none := by
  rcases event_cases h with ⟨_, _, he⟩ | ⟨_, he, -⟩ | ⟨_, he, hend⟩ <;> cases he
  exact hend

end Parser
end HttpClient
