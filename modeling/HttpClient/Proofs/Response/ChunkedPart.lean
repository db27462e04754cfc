import HttpClient.Proofs.Response.Intake
set_option autoImplicit false

/-!
How far a chunked body has come. The octets that were taken in are a beginning of a body in the
grammar, and the phase says which; every move goes on to a longer beginning.
-/

namespace HttpClient

/-- A chunked body as far as it has come. -/
inductive ChunkedPart where
  | between (chunks : List SizedChunk)
  | within (chunks : List SizedChunk) (line done : Bytes) (left size : Nat)
      (names : Chunk.Names Bytes.isBlank line size) (unbroken : Bytes.splitLine line = none)
      (total : done.length + left = size) (short : 0 < left)
  | unclosed (chunks : List SizedChunk) (chunk : SizedChunk)
  | trailing (body : ChunkedBody)
  | whole (body : ChunkedBody)

namespace ChunkedPart

def octets : ChunkedPart → Bytes
  | .between chunks => chunks.flatMap SizedChunk.bytes
  | .within chunks line done .. =>
    chunks.flatMap SizedChunk.bytes ++ (line ++ Bytes.crlf ++ done)
  | .unclosed chunks chunk =>
    chunks.flatMap SizedChunk.bytes ++ (chunk.line ++ Bytes.crlf ++ chunk.data)
  | .trailing body => body.opening
  | .whole body => body.bytes

def payload : ChunkedPart → Bytes
  | .between chunks => chunks.flatMap SizedChunk.data
  | .within chunks _ done .. => chunks.flatMap SizedChunk.data ++ done
  | .unclosed chunks chunk => chunks.flatMap SizedChunk.data ++ chunk.data
  | .trailing body | .whole body => body.payload

def sizeLines : ChunkedPart → List Bytes
  | .between chunks => chunks.map SizedChunk.line
  | .within chunks line .. => chunks.map SizedChunk.line ++ [line]
  | .unclosed chunks chunk => chunks.map SizedChunk.line ++ [chunk.line]
  | .trailing body | .whole body => body.sizeLines

def trailers : ChunkedPart → List FieldLine
  | .trailing body | .whole body => body.trailers
  | _ => []

/-- The phase and the buffer of a parser that has taken in just that. -/
def At (phase : Phase) (buffer : Bytes) : ChunkedPart → Prop
  | .between _ =>
    phase = .chunkSize ∨ phase = .lastChunk ∧ Chunk.isLastSoFar buffer = true
  | .within _ _ _ left .. => phase = .chunkData left
  | .unclosed .. => phase = .chunkEnd
  | .trailing body => phase = .trailers body.fields (body.trailers.flatMap FieldLine.bytes).length
  | .whole body => phase = .complete (some body.fields)

/-- No bound is exceeded by a size line or by the trailers. -/
structure Within (l : Limits) (part : ChunkedPart) : Prop where
  sizes : ∀ line ∈ part.sizeLines, l.AllowsLine line
  trailers : l.Allows (part.trailers.flatMap FieldLine.bytes).length part.trailers.length

variable {part : ChunkedPart} {p : Parser} {phase : Phase} {rest : Bytes} {e : Event}

theorem At.append {buffer : Bytes} (h : part.At phase buffer) (more : Bytes) :
    part.At phase (buffer ++ more) := by
  cases part with
  | between chunks => exact h.imp_right fun ⟨hp, hl⟩ => ⟨hp, Chunk.isLastSoFar_append hl more⟩
  | _ => exact h

/-- The part that a move leads to: these octets were taken in, and this data handed out. -/
structure Grows (part : ChunkedPart) (p : Parser) (phase : Phase) (rest taken data : Bytes)
    (next : ChunkedPart) : Prop where
  buffer : p.buffer = taken ++ rest
  octets : next.octets = part.octets ++ taken
  payload : next.payload = part.payload ++ data
  stands : next.At phase rest
  within : part.Within p.limits → next.Within p.limits

section Sizes

variable {chunks : List SizedChunk} {line : Bytes} {size : Nat}

theorem isLastSoFar_line_end (line rest : Bytes) :
    Chunk.isLastSoFar (line ++ Bytes.crlf ++ rest) = Chunk.isLastSoFar (line ++ [Bytes.cr]) := by
  have hdrop : ((line ++ Bytes.crlf ++ rest).dropWhile (· == 48)).head? =
      ((line ++ [Bytes.cr]).dropWhile (· == 48)).head? := by
    induction line with
    | nil => rfl
    | cons b line ih =>
      simp only [List.cons_append, List.dropWhile_cons]
      split
      · exact ih
      · rfl
  simp only [Chunk.isLastSoFar, hdrop, Bytes.head?_line_end]

theorem grows_sizeLine (hb : p.buffer = line ++ Bytes.crlf ++ rest)
    (names : Chunk.Names Bytes.isBlank line (size + 1)) (unbroken : Bytes.splitLine line = none)
    (allows : p.limits.AllowsLine line) : (ChunkedPart.between chunks).Grows p
      (.chunkData (size + 1)) rest (line ++ Bytes.crlf) []
      (.within chunks line [] (size + 1) (size + 1) names unbroken (Nat.zero_add _)
        (Nat.succ_pos size)) where
  buffer := hb
  octets := by simp [ChunkedPart.octets]
  payload := by simp [ChunkedPart.payload]
  stands := rfl
  within h := ⟨List.forall_mem_append.2 ⟨h.sizes, List.forall_mem_singleton.2 allows⟩, h.trailers⟩

theorem grows_lastLine (hb : p.buffer = line ++ Bytes.crlf ++ rest)
    (names : Chunk.Names Bytes.isBlank line 0) (unbroken : Bytes.splitLine line = none)
    (allows : p.limits.AllowsLine line) : (ChunkedPart.between chunks).Grows p
      (.trailers .empty 0) rest (line ++ Bytes.crlf) []
      (.trailing ⟨chunks, line, names, unbroken, []⟩) where
  buffer := hb
  octets := by simp [ChunkedPart.octets, ChunkedBody.opening]
  payload := by simp [ChunkedPart.payload, ChunkedBody.payload]
  stands := rfl
  within h := ⟨List.forall_mem_append.2 ⟨h.sizes, List.forall_mem_singleton.2 allows⟩,
    p.limits.allows_empty⟩

theorem next_of_between (stands : (ChunkedPart.between chunks).At p.phase p.buffer)
    (h : p.move = .next phase rest) :
    ∃ taken next, (ChunkedPart.between chunks).Grows p phase rest taken [] next := by
  rcases stands with hp | ⟨hp, hlast⟩
  · simp only [Parser.move, hp] at h
    obtain ⟨line, size, names, unbroken, hb, allows, rfl⟩ := Parser.next_of_sizeLine h
    cases size with
    | zero => exact ⟨_, _, grows_lastLine hb names unbroken allows⟩
    | succ size => exact ⟨_, _, grows_sizeLine hb names unbroken allows⟩
  · simp only [Parser.move, hp] at h
    obtain ⟨line, size, names, unbroken, hb, allows, rfl⟩ := Parser.next_of_sizeLine h
    rw [hb, isLastSoFar_line_end] at hlast
    obtain rfl := Chunk.readSize_eq_zero hlast (Chunk.readSize_eq_ok_iff.2 names)
    exact ⟨_, _, grows_lastLine hb names unbroken allows⟩

end Sizes

section Trailers

variable {body : ChunkedBody}

theorem grows_trailerLine {l : FieldLine} (hb : p.buffer = l.bytes ++ rest)
    (allows : p.limits.Allows ((body.trailers.flatMap FieldLine.bytes).length + l.bytes.length)
      (body.fields.count + 1)) :
    (ChunkedPart.trailing body).Grows p (.trailers (body.fields.push l.field)
      ((body.trailers.flatMap FieldLine.bytes).length + l.bytes.length)) rest l.bytes []
      (.trailing { body with trailers := body.trailers ++ [l] }) where
  buffer := hb
  octets := by simp [ChunkedPart.octets, ChunkedBody.opening]
  payload := by simp [ChunkedPart.payload, ChunkedBody.payload]
  stands := by simp [At, ChunkedBody.fields, Fields.push]
  within h := by
    refine ⟨h.sizes, ?_⟩
    rw [ChunkedBody.count_fields] at allows
    simpa [ChunkedPart.trailers] using allows

theorem next_of_trailing (stands : (ChunkedPart.trailing body).At p.phase p.buffer)
    (h : p.move = .next phase rest) :
    ∃ taken next, (ChunkedPart.trailing body).Grows p phase rest taken [] next := by
  rcases Parser.next_of_trailers stands h with ⟨l, hb, allows, rfl⟩ | ⟨hb, rfl⟩
  · exact ⟨_, _, grows_trailerLine hb allows⟩
  · exact ⟨Bytes.crlf, .whole body, hb, rfl, by simp [ChunkedPart.payload], rfl,
      fun h => ⟨h.sizes, h.trailers⟩⟩

end Trailers

theorem next (stands : part.At p.phase p.buffer) (h : p.move = .next phase rest) :
    ∃ taken next, part.Grows p phase rest taken [] next := by
  cases part with
  | between chunks => exact next_of_between stands h
  | within chunks line done left size names unbroken total short =>
    exact absurd ((Parser.move_chunkData p left stands).symm.trans h) Parser.takeBody_ne_next
  | unclosed chunks chunk =>
    obtain ⟨hb, rfl⟩ := Parser.next_of_chunkEnd stands h
    refine ⟨Bytes.crlf, .between (chunks ++ [chunk]), hb, ?_, ?_, .inl rfl,
      fun h => ⟨?_, h.trailers⟩⟩
    · simp [octets, SizedChunk.bytes]
    · simp [payload]
    · simpa [sizeLines] using h.sizes
  | trailing body => exact next_of_trailing stands h
  | whole body =>
    have hp : p.phase = .complete (some body.fields) := stands
    simp [Parser.move, hp] at h

theorem event (stands : part.At p.phase p.buffer) (h : p.move = .event e phase rest) :
    (∃ data next, e = .chunk data ∧ part.Grows p phase rest data data next) ∨
      ∃ body, part = .whole body ∧ e = .complete body.fields ∧ rest = p.buffer ∧
        phase = .complete none := by
  cases part with
  | between chunks =>
    rcases stands with hp | ⟨hp, -⟩
    all_goals
      simp only [Parser.move, hp] at h
      exact absurd h (Parser.moveChunkLine_ne_event _ _ _ _ _ _)
  | within chunks line done left size names unbroken total short =>
    rw [Parser.move_chunkData p left stands] at h
    obtain ⟨data, rfl, hne, hb, hle, rfl⟩ := Parser.event_of_takeBody h
    rcases Nat.eq_or_lt_of_le hle with rfl | hlt
    · refine .inl ⟨data, .unclosed chunks ⟨line, done ++ data, ?_, unbroken, ?_⟩, rfl, hb,
        ?_, ?_, ?_, fun h => ⟨h.sizes, h.trailers⟩⟩
      · rwa [List.length_append, total]
      · simp [hne]
      · simp [octets]
      · simp [payload]
      · rw [Nat.sub_self]
        rfl
    · have hleft : 0 < left - data.length := by omega
      refine .inl ⟨data, .within chunks line (done ++ data) (left - data.length) size names
        unbroken ?_ hleft, rfl, hb, ?_, ?_, ?_, fun h => ⟨h.sizes, h.trailers⟩⟩
      · rw [List.length_append]
        omega
      · simp [octets]
      · simp [payload]
      · exact Parser.afterChunkData_pos hleft
  | unclosed chunks chunk =>
    have hp : p.phase = .chunkEnd := stands
    simp only [Parser.move, hp, Parser.moveChunkEnd] at h
    repeat' split at h
    all_goals cases h
  | trailing body =>
    have hp : p.phase = .trailers _ _ := stands
    simp only [Parser.move, hp, Parser.moveTrailers, Parser.headTooLarge] at h
    repeat' split at h
    all_goals cases h
  | whole body =>
    have hp : p.phase = .complete (some body.fields) := stands
    simp only [Parser.move, hp] at h
    cases h
    exact .inr ⟨body, rfl, rfl, rfl, rfl⟩

theorem wait (stands : part.At p.phase p.buffer) (h : p.move = .wait phase) :
    part.At phase p.buffer := by
  rcases Parser.move_wait_cases h with rfl | ⟨hp, rfl, hlast, -⟩
  · exact stands
  · cases part with
    | between chunks => exact .inr ⟨rfl, hlast⟩
    | _ => exact absurd (hp.symm.trans stands) (by simp)

end ChunkedPart
end HttpClient
