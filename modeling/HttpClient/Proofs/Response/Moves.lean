import HttpClient.Response.Parser
set_option autoImplicit false

/-!
How a move depends on the buffer. A line is judged by its octets alone, a body is handed out as far
as it has come, and what follows the consumed octets is never looked at; so a move that consumes
something is the same whatever comes later.
-/

namespace HttpClient

namespace Bytes

theorem head?_line_end (line rest : Bytes) :
    (line ++ crlf ++ rest).head? = (line ++ [cr]).head? := by
  cases line <;> simp [crlf]

theorem splitLine_concat_cr_of_some {bs line rest : Bytes}
    (h : splitLine bs = some (line, rest)) : splitLine (line ++ [cr]) = none := by
  induction bs generalizing line with
  | nil => simp [splitLine] at h
  | cons b bs ih =>
    simp only [splitLine] at h
    split at h
    · cases h
      decide
    · next hb =>
      obtain ⟨⟨l, r⟩, hl, he⟩ := Option.map_eq_some_iff.1 h
      cases he
      rw [eq_of_splitLine hl, head?_line_end] at hb
      simp only [List.cons_append, splitLine, hb, ite_false, ih hl, Option.map_none]

theorem splitLine_line {line : Bytes} (h : splitLine (line ++ [cr]) = none) (rest : Bytes) :
    splitLine (line ++ crlf ++ rest) = some (line, rest) := by
  induction line with
  | nil => simp [splitLine, crlf]
  | cons c line ih =>
    simp only [List.cons_append, splitLine] at h ⊢
    rw [head?_line_end]
    split at h
    · simp at h
    · next hc => simp only [hc, ite_false, ih (by simpa using h), Option.map_some]

theorem splitLine_eq_some_iff {bs line rest : Bytes} :
    splitLine bs = some (line, rest) ↔
      bs = line ++ crlf ++ rest ∧ splitLine (line ++ [cr]) = none :=
  ⟨fun h => ⟨eq_of_splitLine h, splitLine_concat_cr_of_some h⟩,
    fun ⟨he, hl⟩ => he ▸ splitLine_line hl rest⟩

theorem splitLine_append {bs line rest : Bytes} (h : splitLine bs = some (line, rest))
    (more : Bytes) : splitLine (bs ++ more) = some (line, rest ++ more) := by
  rw [splitLine_eq_some_iff] at h ⊢
  exact ⟨by simp [h.1], h.2⟩

theorem splitLine_of_rest {bs line rest : Bytes} (h : splitLine bs = some (line, rest))
    (other : Bytes) : splitLine (line ++ crlf ++ other) = some (line, other) :=
  splitLine_eq_some_iff.2 ⟨rfl, (splitLine_eq_some_iff.1 h).2⟩

theorem of_splitLine_append {bs more line rest : Bytes} (hn : splitLine bs = none)
    (h : splitLine (bs ++ more) = some (line, rest)) :
    (∃ tail, line = bs ++ tail) ∨ bs = line ++ [cr] ∧ more = lf :: rest := by
  obtain ⟨he, hl⟩ := splitLine_eq_some_iff.1 h
  rw [List.append_assoc] at he
  rcases List.append_eq_append_iff.1 he with ⟨tail, hline, -⟩ | ⟨tail, hbs, hmore⟩
  · exact .inl ⟨tail, hline⟩
  · cases tail with
    | nil => exact .inl ⟨[], by simpa using hbs.symm⟩
    | cons b tail =>
      simp only [crlf, List.cons_append, List.nil_append, List.cons.injEq] at hmore
      obtain ⟨rfl, hmore⟩ := hmore
      cases tail with
      | nil => exact .inr ⟨hbs, by simpa using hmore.symm⟩
      | cons c tail =>
        simp only [List.cons_append, List.cons.injEq] at hmore
        have hs : splitLine bs = some (line, tail) :=
          splitLine_eq_some_iff.2 ⟨by simp [hbs, crlf, hmore.1], hl⟩
        rw [hn] at hs
        cases hs

theorem splitLine_concat_cr {bs : Bytes} (h : splitLine bs = none) :
    splitLine (bs ++ [cr]) = none := by
  cases hs : splitLine (bs ++ [cr]) with
  | none => rfl
  | some result =>
    obtain ⟨line, rest⟩ := result
    rcases of_splitLine_append h hs with ⟨tail, rfl⟩ | ⟨-, hm⟩
    · have := length_of_splitLine hs
      simp at this
      omega
    · simp [cr, lf] at hm

end Bytes

def Phase.readsLine : Phase → Bool
  | .statusLine | .fieldLines .. | .chunkSize | .lastChunk | .trailers .. => true
  | _ => false

def Phase.readsBody : Phase → Bool
  | .counted _ | .chunkData _ | .untilClose => true
  | _ => false

def Move.withRest (other : Bytes) : Move → Move
  | .next phase _ => .next phase other
  | .event e phase _ => .event e phase other
  | m => m

namespace Parser

def withBuffer (p : Parser) (b : Bytes) : Parser := { p with buffer := b }

@[simp] theorem withBuffer_buffer (p : Parser) (b : Bytes) : (p.withBuffer b).buffer = b := rfl

@[simp] theorem withBuffer_phase (p : Parser) (b : Bytes) : (p.withBuffer b).phase = p.phase := rfl

@[simp] theorem withBuffer_limits (p : Parser) (b : Bytes) :
    (p.withBuffer b).limits = p.limits := rfl

@[simp] theorem withBuffer_self (p : Parser) : p.withBuffer p.buffer = p := rfl

@[simp] theorem withBuffer_withBuffer (p : Parser) (b c : Bytes) :
    (p.withBuffer b).withBuffer c = p.withBuffer c := rfl

@[simp] theorem headTooLarge_withBuffer (p : Parser) (b : Bytes) (size : Nat) :
    (p.withBuffer b).headTooLarge size = p.headTooLarge size := rfl

@[simp] theorem addField_withBuffer (p : Parser) (b : Bytes) (fields : Fields) (line : Bytes) :
    (p.withBuffer b).addField fields line = p.addField fields line := rfl

section Lines

variable {p : Parser} {line rest : Bytes}

theorem endHead_withRest (p : Parser) (b : Bytes) (start : StatusLine) (fields : Fields)
    (rest other : Bytes) :
    (p.withBuffer b).endHead start fields other =
      (p.endHead start fields rest).withRest other := by
  have hn : (p.withBuffer b).noBody start.status = p.noBody start.status := rfl
  unfold endHead
  rw [hn]
  by_cases hi : isInterim start.status = true
  · simp only [hi, ite_true, Move.withRest]
  · simp only [hi, ite_false, Bool.false_eq_true]
    cases Framing.resolve fields (p.noBody start.status) <;> rfl

theorem moveStatusLine_of_rest (h : Bytes.splitLine p.buffer = some (line, rest)) (other : Bytes) :
    (p.withBuffer (line ++ Bytes.crlf ++ other)).moveStatusLine =
      p.moveStatusLine.withRest other := by
  simp only [moveStatusLine, withBuffer_buffer, withBuffer_limits, Bytes.splitLine_of_rest h, h]
  by_cases hs : p.limits.headTooLarge (line.length + 2) = true
  · simp only [hs, ite_true]
    rfl
  · simp only [hs, ite_false, Bool.false_eq_true]
    cases StatusLine.read line <;> rfl

theorem moveFieldLines_of_rest (h : Bytes.splitLine p.buffer = some (line, rest))
    (start : StatusLine) (fields : Fields) (used : Nat) (other : Bytes) :
    (p.withBuffer (line ++ Bytes.crlf ++ other)).moveFieldLines start fields used =
      (p.moveFieldLines start fields used).withRest other := by
  simp only [moveFieldLines, withBuffer_buffer, withBuffer_limits, Bytes.splitLine_of_rest h, h,
    addField_withBuffer, headTooLarge_withBuffer]
  by_cases hs : p.limits.headTooLarge (used + line.length + 2) = true
  · simp only [hs, ite_true]
    rfl
  · simp only [hs, ite_false, Bool.false_eq_true]
    by_cases he : line.isEmpty = true
    · simp only [he, ite_true]
      exact endHead_withRest p _ start fields rest other
    · simp only [he, ite_false, Bool.false_eq_true]
      cases p.addField fields line <;> rfl

theorem moveChunkLine_of_rest (h : Bytes.splitLine p.buffer = some (line, rest))
    (wait wait' : Phase) (sized : Nat → Phase) (other : Bytes) :
    (p.withBuffer (line ++ Bytes.crlf ++ other)).moveChunkLine wait' sized =
      (p.moveChunkLine wait sized).withRest other := by
  simp only [moveChunkLine, withBuffer_buffer, withBuffer_limits, Bytes.splitLine_of_rest h, h]
  cases Limits.exceeded p.limits.chunkLine line.length with
  | some limit => rfl
  | none => cases Chunk.readSize line <;> rfl

theorem moveTrailers_of_rest (h : Bytes.splitLine p.buffer = some (line, rest))
    (fields : Fields) (used : Nat) (other : Bytes) :
    (p.withBuffer (line ++ Bytes.crlf ++ other)).moveTrailers fields used =
      (p.moveTrailers fields used).withRest other := by
  simp only [moveTrailers, withBuffer_buffer, withBuffer_limits, Bytes.splitLine_of_rest h, h,
    addField_withBuffer, headTooLarge_withBuffer]
  by_cases he : line.isEmpty = true
  · simp only [he, ite_true, Move.withRest]
  · simp only [he, ite_false, Bool.false_eq_true]
    by_cases hs : p.limits.headTooLarge (used + line.length + 2) = true
    · simp only [hs, ite_true]
      rfl
    · simp only [hs, ite_false, Bool.false_eq_true]
      cases p.addField fields line <;> rfl

theorem move_of_rest (hp : p.phase.readsLine = true)
    (h : Bytes.splitLine p.buffer = some (line, rest)) (other : Bytes) :
    (p.withBuffer (line ++ Bytes.crlf ++ other)).move = p.move.withRest other := by
  unfold move
  rw [withBuffer_phase]
  split
  · exact moveStatusLine_of_rest h other
  · exact moveFieldLines_of_rest h _ _ _ other
  · next hq => simp [hq, Phase.readsLine] at hp
  · next hq => simp [hq, Phase.readsLine] at hp
  · exact moveChunkLine_of_rest h _ _ _ other
  · next hq => simp [hq, Phase.readsLine] at hp
  · next hq => simp [hq, Phase.readsLine] at hp
  · exact moveChunkLine_of_rest h _ _ _ other
  · exact moveTrailers_of_rest h _ _ other
  · next hq => simp [hq, Phase.readsLine] at hp
  · next hq => simp [hq, Phase.readsLine] at hp
  · next hq => simp [hq, Phase.readsLine] at hp

def sectionError (p : Parser) (size : Nat) : Option ParseError :=
  if p.limits.headTooLarge size then some (.headTooLarge size p.limits.headBytes) else none

def pendingError (p : Parser) : Option ParseError :=
  match p.phase with
  | .statusLine => p.sectionError p.buffer.length
  | .fieldLines _ _ used | .trailers _ used => p.sectionError (used + p.buffer.length)
  | .chunkSize | .lastChunk =>
    (Limits.exceeded p.limits.chunkLine p.buffer.length).map
      (.chunkLineTooLong p.buffer.length)
  | _ => none

def waitPhase (p : Parser) : Phase :=
  if p.phase = .chunkSize ∧ Chunk.isLastSoFar p.buffer = true then .lastChunk else p.phase

def pendingMove (error : Option ParseError) (wait : Phase) : Move :=
  match error with
  | some e => .fail e
  | none => .wait wait

theorem section_pendingMove (p : Parser) (size : Nat) (wait : Phase) :
    (if p.limits.headTooLarge size then p.headTooLarge size else .wait wait) =
      pendingMove (p.sectionError size) wait := by
  unfold sectionError
  split <;> rfl

theorem moveChunkLine_of_unfinished (h : Bytes.splitLine p.buffer = none) (wait : Phase)
    (sized : Nat → Phase) :
    p.moveChunkLine wait sized =
      pendingMove ((Limits.exceeded p.limits.chunkLine p.buffer.length).map
        (.chunkLineTooLong p.buffer.length)) wait := by
  rw [moveChunkLine, h]
  cases Limits.exceeded p.limits.chunkLine p.buffer.length <;> rfl

theorem move_of_unfinished (hp : p.phase.readsLine = true) (h : Bytes.splitLine p.buffer = none) :
    p.move = pendingMove p.pendingError p.waitPhase := by
  unfold move pendingError waitPhase
  cases hq : p.phase with
  | statusLine => simpa [moveStatusLine, h] using section_pendingMove p _ _
  | fieldLines start fields used =>
    simpa [moveFieldLines, h] using section_pendingMove p _ _
  | chunkSize => simpa using moveChunkLine_of_unfinished h _ _
  | lastChunk => simpa using moveChunkLine_of_unfinished h _ _
  | trailers fields used => simpa [moveTrailers, h] using section_pendingMove p _ _
  | _ => simp [hq, Phase.readsLine] at hp

end Lines

theorem move_counted (q : Parser) (n : Nat) (hq : q.phase = .counted n) :
    q.move = q.takeBody n afterCounted (.counted n) := by simp only [move, hq]

theorem move_chunkData (q : Parser) (n : Nat) (hq : q.phase = .chunkData n) :
    q.move = q.takeBody n afterChunkData (.chunkData n) := by simp only [move, hq]

theorem move_untilClose (q : Parser) (hq : q.phase = .untilClose) :
    q.move = q.takeBody q.buffer.length (fun _ => .untilClose) .untilClose := by
  simp only [move, hq]

section Bodies

variable {p : Parser} {left : Nat}

theorem takeBody_eq (hl : 0 < left) (hb : p.buffer ≠ []) (later : Nat → Phase) (wait : Phase) :
    p.takeBody left later wait =
      .event (.chunk (p.buffer.take left)) (later (left - p.buffer.length))
        (p.buffer.drop left) := by
  unfold takeBody
  split
  · next h =>
    rcases List.take_eq_nil_iff.1 h with h | h
    · omega
    · exact absurd h hb
  · next h => rw [h]

theorem takeBody_nil (hb : p.buffer = []) (later : Nat → Phase) (wait : Phase) :
    p.takeBody left later wait = .wait wait := by
  simp [takeBody, hb]

/-- Some octets of the body came, and nothing tells where it goes on: `phase` awaits the others,
and whatever comes then is handed out just as if it had come at once. -/
structure Exhausts (p : Parser) (phase : Phase) : Prop where
  waits : ∀ q : Parser, q.phase = phase → q.buffer = [] → q.move = .wait phase
  resumes : ∀ more : Bytes, more ≠ [] → ∃ data after rest,
    (∀ q : Parser, q.phase = phase → q.buffer = more →
      q.move = .event (.chunk data) after rest) ∧
    (p.withBuffer (p.buffer ++ more)).move = .event (.chunk (p.buffer ++ data)) after rest

theorem exhausts_of_takeBody {mk after : Nat → Phase}
    (hmove : ∀ (q : Parser) (n : Nat), q.phase = mk n → q.move = q.takeBody n after (mk n))
    (hp : p.phase = mk left) (hl : p.buffer.length < left) :
    Exhausts p (mk (left - p.buffer.length)) where
  waits q hq hb := by rw [hmove q _ hq, takeBody_nil hb]
  resumes more hm := by
    have hlong : left - (p.buffer ++ more).length = left - p.buffer.length - more.length := by
      simp only [List.length_append]
      omega
    refine ⟨more.take (left - p.buffer.length), after (left - p.buffer.length - more.length),
      more.drop (left - p.buffer.length), fun q hq hb => ?_, ?_⟩
    · rw [hmove q _ hq, takeBody_eq (by omega) (by rw [hb]; exact hm), hb]
    · have hq : (p.withBuffer (p.buffer ++ more)).phase = mk left := hp
      rw [hmove _ left hq, takeBody_eq (by omega) (by simp [hm]), withBuffer_buffer, hlong,
        List.take_append, List.drop_append, List.take_of_length_le (by omega),
        List.drop_eq_nil_of_le (by omega), List.nil_append]

theorem exhausts_untilClose (hp : p.phase = .untilClose) : Exhausts p .untilClose := by
  constructor
  · intro q hq hb
    rw [move_untilClose q hq, takeBody_nil hb]
  · intro more hm
    have hpos : 0 < more.length := List.length_pos_iff.2 hm
    refine ⟨more, .untilClose, [], fun q hq hb => ?_, ?_⟩
    · rw [move_untilClose q hq, hb, takeBody_eq hpos (by rw [hb]; exact hm), hb, List.take_length,
        List.drop_length]
    · have hq : (p.withBuffer (p.buffer ++ more)).phase = .untilClose := hp
      rw [move_untilClose _ hq, takeBody_eq (by simp; omega) (by simp [hm]), withBuffer_buffer,
        List.take_length, List.drop_length]

theorem takeBody_event_cases {mk after : Nat → Phase}
    (hmove : ∀ (q : Parser) (n : Nat), q.phase = mk n → q.move = q.takeBody n after (mk n))
    (hafter : ∀ n, 0 < n → after n = mk n) (hp : p.phase = mk left) {e : Event} {phase : Phase}
    {rest : Bytes} (h : p.takeBody left after (mk left) = .event e phase rest) :
    (∃ used, p.buffer = used ++ rest ∧
      ∀ other, (p.withBuffer (used ++ other)).move = .event e phase other) ∨
    e = .chunk p.buffer ∧ rest = [] ∧ Exhausts p phase := by
  have hb : p.buffer ≠ [] := by
    intro hb
    rw [takeBody_nil hb] at h
    cases h
  have hl : 0 < left := by
    rcases Nat.eq_zero_or_pos left with hz | hz
    · simp [takeBody, hz] at h
    · exact hz
  rw [takeBody_eq hl hb] at h
  cases h
  by_cases hle : left ≤ p.buffer.length
  · refine .inl ⟨p.buffer.take left, by simp, fun other => ?_⟩
    have hlen : (p.buffer.take left).length = left := by simp [hle]
    have hz : left - p.buffer.length = left - (p.buffer.take left ++ other).length := by
      simp only [List.length_append, hlen]
      omega
    have hq : (p.withBuffer (p.buffer.take left ++ other)).phase = mk left := hp
    have hne : p.buffer.take left ++ other ≠ [] := by
      intro he
      have := congrArg List.length he
      simp only [List.length_append, hlen, List.length_nil] at this
      omega
    rw [hmove _ left hq, takeBody_eq hl hne, withBuffer_buffer, hz,
      List.take_append_of_le_length (by omega),
      List.take_of_length_le (by omega), List.drop_append_of_le_length (by omega),
      List.drop_eq_nil_of_le (by omega), List.nil_append]
  · have hlt : p.buffer.length < left := by omega
    refine .inr ⟨by rw [List.take_of_length_le (by omega)], List.drop_eq_nil_of_le (by omega), ?_⟩
    rw [hafter _ (by omega)]
    exact exhausts_of_takeBody hmove hp hlt

end Bodies

theorem next_of_moveChunkLine {p : Parser} {wait phase : Phase} {sized : Nat → Phase} {rest : Bytes}
    (h : p.moveChunkLine wait sized = .next phase rest) : ∃ size, phase = sized size := by
  unfold moveChunkLine at h
  repeat' split at h
  all_goals cases h
  exact ⟨_, rfl⟩

theorem takeBody_ne_next {p : Parser} {left : Nat} {later : Nat → Phase} {wait phase : Phase}
    {rest : Bytes} :
    p.takeBody left later wait ≠ .next phase rest := by
  unfold takeBody
  split <;> simp

section Moves

variable {p : Parser} {phase : Phase} {rest : Bytes}

theorem afterCounted_pos {n : Nat} (h : 0 < n) : afterCounted n = .counted n := by
  cases n with
  | zero => omega
  | succ n => rfl

theorem afterChunkData_pos {n : Nat} (h : 0 < n) : afterChunkData n = .chunkData n := by
  cases n with
  | zero => omega
  | succ n => rfl

theorem takeBody_cases (p : Parser) (left : Nat) (later : Nat → Phase) (wait : Phase) :
    p.takeBody left later wait = .wait wait ∨
      ∃ data phase rest, p.takeBody left later wait = .event (.chunk data) phase rest := by
  unfold takeBody
  split
  · exact .inl rfl
  · exact .inr ⟨_, _, _, rfl⟩

theorem move_of_body (hp : p.phase.readsBody = true) :
    p.move = .wait p.phase ∨ ∃ data phase rest, p.move = .event (.chunk data) phase rest := by
  cases hq : p.phase with
  | counted left =>
    rw [move_counted p left hq]
    exact takeBody_cases p left afterCounted (.counted left)
  | chunkData left =>
    rw [move_chunkData p left hq]
    exact takeBody_cases p left afterChunkData (.chunkData left)
  | untilClose =>
    rw [move_untilClose p hq]
    exact takeBody_cases p p.buffer.length (fun _ => .untilClose) .untilClose
  | _ => simp [hq, Phase.readsBody] at hp

theorem withRest_of_line {line after : Bytes} {m : Move} (hr : p.phase.readsLine = true)
    (hs : Bytes.splitLine p.buffer = some (line, after)) (h : p.move = m) :
    m = m.withRest after ∧ p.buffer = line ++ Bytes.crlf ++ after ∧
      ∀ other, (p.withBuffer (line ++ Bytes.crlf ++ other)).move = m.withRest other := by
  have hm := move_of_rest hr hs
  have hb := Bytes.eq_of_splitLine hs
  rw [h] at hm
  have hself := hm after
  rw [← hb, withBuffer_self, h] at hself
  exact ⟨hself, hb, hm⟩

theorem move_next_of_rest (h : p.move = .next phase rest) :
    ∃ used, p.buffer = used ++ rest ∧
      ∀ other, (p.withBuffer (used ++ other)).move = .next phase other := by
  by_cases hr : p.phase.readsLine = true
  · cases hs : Bytes.splitLine p.buffer with
    | none =>
      rw [move_of_unfinished hr hs] at h
      cases he : p.pendingError <;> simp [he, pendingMove] at h
    | some result =>
      obtain ⟨line, after⟩ := result
      obtain ⟨hself, hb, hm⟩ := withRest_of_line hr hs h
      cases hself
      exact ⟨_, hb, hm⟩
  by_cases hb : p.phase.readsBody = true
  · rcases move_of_body hb with h' | ⟨_, _, _, h'⟩ <;> rw [h'] at h <;> cases h
  · cases hq : p.phase with
    | chunkEnd =>
      simp only [move, hq, moveChunkEnd] at h
      split at h
      · cases h
      · split at h <;> cases h
      · next b c r hb =>
        split at h
        · next hbc =>
          cases h
          refine ⟨[b, c], hb, fun other => ?_⟩
          simp [move, hq, moveChunkEnd, hbc]
        · cases h
    | complete trailers => cases trailers <;> simp [move, hq] at h
    | failed => simp [move, hq] at h
    | _ => simp [hq, Phase.readsLine, Phase.readsBody] at hr hb

/-- What is consumed decides an event, unless the event hands out the whole buffer in the middle of
a body. -/
theorem move_event_cases {e : Event} (h : p.move = .event e phase rest) :
    (∃ used, p.buffer = used ++ rest ∧
      ∀ other, (p.withBuffer (used ++ other)).move = .event e phase other) ∨
    e = .chunk p.buffer ∧ rest = [] ∧ Exhausts p phase := by
  by_cases hr : p.phase.readsLine = true
  · cases hs : Bytes.splitLine p.buffer with
    | none =>
      rw [move_of_unfinished hr hs] at h
      cases he : p.pendingError <;> simp [he, pendingMove] at h
    | some result =>
      obtain ⟨line, after⟩ := result
      obtain ⟨hself, hb, hm⟩ := withRest_of_line hr hs h
      cases hself
      exact .inl ⟨_, hb, hm⟩
  · cases hq : p.phase with
    | counted left =>
      rw [move_counted p left hq] at h
      exact takeBody_event_cases move_counted (fun _ => afterCounted_pos) hq h
    | chunkData left =>
      rw [move_chunkData p left hq] at h
      exact takeBody_event_cases move_chunkData (fun _ => afterChunkData_pos) hq h
    | untilClose =>
      have hb : p.buffer ≠ [] := by
        intro hb
        rw [move_untilClose p hq, takeBody_nil hb] at h
        cases h
      rw [move_untilClose p hq, takeBody_eq (List.length_pos_iff.2 hb) hb, List.take_length,
        List.drop_length] at h
      cases h
      exact .inr ⟨rfl, rfl, exhausts_untilClose hq⟩
    | chunkEnd =>
      simp only [move, hq, moveChunkEnd] at h
      split at h
      · cases h
      · split at h <;> cases h
      · split at h <;> cases h
    | complete trailers =>
      cases trailers with
      | none => simp [move, hq] at h
      | some trailers =>
        simp only [move, hq] at h
        cases h
        exact .inl ⟨[], rfl, fun other => by simp [move, hq]⟩
    | failed => simp [move, hq] at h
    | _ => simp [hq, Phase.readsLine] at hr

/-- A failure stays one whatever comes later, unless an unfinished line is too long already. -/
theorem move_fail_cases {error : ParseError} (h : p.move = .fail error) :
    (∀ more, (p.withBuffer (p.buffer ++ more)).move = .fail error) ∨
    p.phase.readsLine = true ∧ Bytes.splitLine p.buffer = none ∧ p.pendingError = some error := by
  by_cases hr : p.phase.readsLine = true
  · cases hs : Bytes.splitLine p.buffer with
    | none =>
      rw [move_of_unfinished hr hs] at h
      cases he : p.pendingError with
      | none => simp [he, pendingMove] at h
      | some e =>
        simp only [he, pendingMove, Move.fail.injEq] at h
        exact .inr ⟨hr, rfl, congrArg some h⟩
    | some result =>
      obtain ⟨line, after⟩ := result
      obtain ⟨-, hb, hm⟩ := withRest_of_line hr hs h
      refine .inl fun more => ?_
      rw [hb, List.append_assoc]
      exact hm (after ++ more)
  by_cases hb : p.phase.readsBody = true
  · rcases move_of_body hb with h' | ⟨_, _, _, h'⟩ <;> rw [h'] at h <;> cases h
  · refine .inl fun more => ?_
    cases hq : p.phase with
    | chunkEnd =>
      simp only [move, hq, withBuffer_phase, moveChunkEnd, withBuffer_buffer] at h ⊢
      split at h
      · cases h
      · next b hb =>
        split at h
        · cases h
        · next hc =>
          rw [hb]
          cases more with
          | nil => simpa [hc] using h
          | cons c more => simpa [hc] using h
      · next b c r hb =>
        split at h
        · cases h
        · next hc =>
          rw [hb]
          simpa only [List.cons_append, hc, ite_false] using h
    | complete trailers => cases trailers <;> simp [move, hq] at h
    | failed => simpa [move, hq] using h
    | _ => simp [hq, Phase.readsLine, Phase.readsBody] at hr hb

theorem move_ne_wait_of_line {line : Bytes} (hr : p.phase.readsLine = true)
    (hs : Bytes.splitLine p.buffer = some (line, rest)) : p.move ≠ .wait phase := by
  intro h
  unfold move at h
  cases hq : p.phase with
  | statusLine =>
    simp only [hq, moveStatusLine, hs] at h
    by_cases hl : p.limits.headTooLarge (line.length + 2) = true
    · simp [hl, headTooLarge] at h
    · cases hd : StatusLine.read line <;> simp [hl, hd] at h
  | fieldLines start fields used =>
    simp only [hq, moveFieldLines, hs] at h
    by_cases hl : p.limits.headTooLarge (used + line.length + 2) = true
    · simp [hl, headTooLarge] at h
    · by_cases he : line.isEmpty = true
      · simp only [hl, he, ite_true, ite_false, Bool.false_eq_true, endHead] at h
        split at h
        · cases h
        · split at h <;> cases h
      · cases hd : p.addField fields line <;> simp [hl, he, hd] at h
  | chunkSize =>
    simp only [hq, moveChunkLine, hs] at h
    cases hl : Limits.exceeded p.limits.chunkLine line.length <;>
      cases hd : Chunk.readSize line <;> simp [hl, hd] at h
  | lastChunk =>
    simp only [hq, moveChunkLine, hs] at h
    cases hl : Limits.exceeded p.limits.chunkLine line.length <;>
      cases hd : Chunk.readSize line <;> simp [hl, hd] at h
  | trailers fields used =>
    simp only [hq, moveTrailers, hs] at h
    by_cases he : line.isEmpty = true
    · simp [he] at h
    · by_cases hl : p.limits.headTooLarge (used + line.length + 2) = true
      · simp [he, hl, headTooLarge] at h
      · cases hd : p.addField fields line <;> simp [hl, he, hd] at h
  | _ => simp [hq, Phase.readsLine] at hr

theorem move_wait_cases (h : p.move = .wait phase) :
    phase = p.phase ∨
      p.phase = .chunkSize ∧ phase = .lastChunk ∧ Chunk.isLastSoFar p.buffer = true ∧
        Bytes.splitLine p.buffer = none := by
  by_cases hr : p.phase.readsLine = true
  · cases hs : Bytes.splitLine p.buffer with
    | none =>
      rw [move_of_unfinished hr hs] at h
      cases he : p.pendingError with
      | some e => simp [he, pendingMove] at h
      | none =>
        simp only [he, pendingMove, Move.wait.injEq] at h
        by_cases hl : p.phase = .chunkSize ∧ Chunk.isLastSoFar p.buffer = true
        · exact .inr ⟨hl.1, by simp [← h, waitPhase, hl], hl.2, rfl⟩
        · exact .inl (by simp only [← h, waitPhase, hl, ite_false])
    | some result => exact absurd h (move_ne_wait_of_line hr hs)
  left
  by_cases hb : p.phase.readsBody = true
  · rcases move_of_body hb with h' | ⟨_, _, _, h'⟩ <;> rw [h'] at h <;> cases h
    rfl
  · cases hq : p.phase with
    | chunkEnd =>
      simp only [move, hq, moveChunkEnd] at h
      split at h
      · cases h; rfl
      · split at h <;> cases h
        rfl
      · split at h <;> cases h
    | complete trailers => cases trailers <;> simp_all [move]
    | failed => simp [move, hq] at h
    | _ => simp [hq, Phase.readsLine, Phase.readsBody] at hr hb

end Moves

end Parser
end HttpClient
