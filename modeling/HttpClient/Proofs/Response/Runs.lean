import HttpClient.Proofs.Response.ChunkLine
import HttpClient.Proofs.Response.Moves
import HttpClient.Response.Drain
set_option autoImplicit false

/-!
What reading gives, move by move, and what becomes of it when more octets come. The division of a
body into chunk events hangs on when its octets came; `Event.merge` forgets it.
-/

namespace HttpClient

/-- The events with each run of chunks made one. -/
def Event.merge : List Event → List Event
  | [] => []
  | .chunk data :: rest =>
    match merge rest with
    | .chunk more :: later => .chunk (data ++ more) :: later
    | later => .chunk data :: later
  | e :: rest => e :: merge rest

namespace Event

theorem merge_cons {es fs : List Event} (e : Event) (h : merge es = merge fs) :
    merge (e :: es) = merge (e :: fs) := by
  cases e <;> simp only [merge, h]

theorem merge_append {es fs : List Event} (ds : List Event) (h : merge es = merge fs) :
    merge (ds ++ es) = merge (ds ++ fs) := by
  induction ds with
  | nil => exact h
  | cons d ds ih => exact merge_cons d ih

theorem merge_halves (data more : Bytes) (es : List Event) :
    merge (.chunk (data ++ more) :: es) = merge (.chunk data :: .chunk more :: es) := by
  simp only [merge]
  split <;> simp

end Event

namespace Parser

/-- What reading gave: events, the error that ended it, and the parser afterwards. -/
abbrev Run := List Event × Option ParseError × Parser

/-- Two runs that differ at most in how bodies are divided into chunks. -/
def Run.Same (r s : Run) : Prop := Event.merge r.1 = Event.merge s.1 ∧ r.2 = s.2

def Run.after (es : List Event) (r : Run) : Run := (es ++ r.1, r.2)

def Run.andThen (r : Run) (next : Parser → Run) : Run :=
  match r.2 with
  | (none, q) => (next q).after r.1
  | (some _, _) => r

namespace Run

variable {r s t : Run}

theorem Same.refl (r : Run) : r.Same r := ⟨rfl, rfl⟩

theorem Same.symm (h : r.Same s) : s.Same r := ⟨h.1.symm, h.2.symm⟩

theorem Same.trans (h : r.Same s) (h' : s.Same t) : r.Same t :=
  ⟨h.1.trans h'.1, h.2.trans h'.2⟩

theorem Same.after (es : List Event) (h : r.Same s) : (r.after es).Same (s.after es) :=
  ⟨Event.merge_append es h.1, h.2⟩

theorem after_after (ds es : List Event) (r : Run) :
    (r.after es).after ds = r.after (ds ++ es) := by
  simp [Run.after]

end Run

section Events

variable {p q : Parser} {phase : Phase} {rest : Bytes}

theorem events_of_advance_none (h : p.advance = (.ok none, q)) : p.events = ([], none, q) := by
  rw [events]
  split <;> simp_all

theorem events_of_advance_error {error : ParseError} (h : p.advance = (.error error, q)) :
    p.events = ([], some error, q) := by
  rw [events]
  split <;> simp_all

theorem events_of_advance_some {e : Event} (h : p.advance = (.ok (some e), q)) :
    p.events = Run.after [e] q.events := by
  rw [events]
  split <;> simp_all [Run.after]

theorem advance_of_wait (h : p.move = .wait phase) :
    p.advance = (.ok none, { p with phase := phase }) := by
  rw [advance]
  split <;> simp_all

theorem advance_of_fail {error : ParseError} (h : p.move = .fail error) :
    p.advance = (.error error, { p with phase := .failed, buffer := [] }) := by
  rw [advance]
  split <;> simp_all

theorem advance_of_event {e : Event} (h : p.move = .event e phase rest) :
    p.advance = (.ok (some e), p.record e phase rest) := by
  rw [advance]
  split <;> simp_all

theorem advance_of_next (h : p.move = .next phase rest) :
    p.advance = Parser.advance { p with phase := phase, buffer := rest } := by
  rw [advance]
  split <;> simp_all

theorem events_of_wait (h : p.move = .wait phase) :
    p.events = ([], none, { p with phase := phase }) :=
  events_of_advance_none (advance_of_wait h)

theorem events_of_fail {error : ParseError} (h : p.move = .fail error) :
    p.events = ([], some error, { p with phase := .failed, buffer := [] }) :=
  events_of_advance_error (advance_of_fail h)

theorem events_of_event {e : Event} (h : p.move = .event e phase rest) :
    p.events = Run.after [e] (p.record e phase rest).events :=
  events_of_advance_some (advance_of_event h)

theorem events_congr (h : p.advance = q.advance) : p.events = q.events := by
  rcases hq : q.advance with ⟨⟨⟩ | ⟨⟨⟩ | e⟩, r⟩
  · rw [events_of_advance_error (h.trans hq), events_of_advance_error hq]
  · rw [events_of_advance_none (h.trans hq), events_of_advance_none hq]
  · rw [events_of_advance_some (h.trans hq), events_of_advance_some hq]

theorem events_of_next (h : p.move = .next phase rest) :
    p.events = Parser.events { p with phase := phase, buffer := rest } :=
  events_congr (advance_of_next h)

end Events

def append (p : Parser) (more : Bytes) : Parser := p.withBuffer (p.buffer ++ more)

section More

variable {p : Parser} {phase : Phase} {rest : Bytes}

@[simp] theorem append_nil (p : Parser) : p.append [] = p := by
  simp [append]

@[simp] theorem append_append (p : Parser) (a b : Bytes) :
    (p.append a).append b = p.append (a ++ b) := by
  simp [append]

theorem record_withBuffer (p : Parser) (b other : Bytes) (e : Event) (phase : Phase)
    (rest : Bytes) :
    (p.withBuffer b).record e phase other = (p.record e phase rest).withBuffer other := by
  cases e <;> rfl

theorem bodyTooLarge_add (l : Limits) (size more : Nat) :
    (l.bodyTooLarge size || l.bodyTooLarge (size + more)) = l.bodyTooLarge (size + more) := by
  apply Bool.eq_iff_iff.2
  simp only [Limits.bodyTooLarge, Bool.or_eq_true, Bool.and_eq_true, bne_iff_ne, decide_eq_true_eq]
  omega

theorem record_halves (p : Parser) (data more : Bytes) (between phase : Phase)
    (left b rest : Bytes) :
    ((p.record (.chunk data) between left).withBuffer b).record (.chunk more) phase rest =
      (p.withBuffer b).record (.chunk (data ++ more)) phase rest := by
  simp only [record, withBuffer, List.length_append, ← Nat.add_assoc, Bool.or_assoc,
    bodyTooLarge_add]

theorem events_of_exhausts (hm : p.move = .event (.chunk p.buffer) phase [])
    (h : Exhausts p phase) (more : Bytes) :
    Run.Same (p.append more).events
      (Run.after [.chunk p.buffer] ((p.record (.chunk p.buffer) phase []).append more).events) := by
  by_cases hne : more = []
  · rw [hne, append_nil, append_nil, events_of_event hm]
    exact .refl _
  · obtain ⟨data, after, rest, hdata, hall⟩ := h.resumes more hne
    have hq := hdata ((p.record (.chunk p.buffer) phase []).append more) rfl rfl
    rw [events_of_event hq, events_of_event (p := p.append more) hall, append, append,
      record_halves]
    exact ⟨Event.merge_halves _ _ _, rfl⟩

end More

/-- By moves with these events the one parser comes to be the other. -/
inductive Leads : Parser → List Event → Parser → Prop where
  | refl (p : Parser) : Leads p [] p
  | next {p q : Parser} {phase : Phase} {rest : Bytes} {es : List Event}
      (move : p.move = .next phase rest)
      (later : Leads { p with phase := phase, buffer := rest } es q) : Leads p es q
  | event {p q : Parser} {e : Event} {phase : Phase} {rest : Bytes} {es : List Event}
      (move : p.move = .event e phase rest) (later : Leads (p.record e phase rest) es q) :
      Leads p (e :: es) q

def Stops (p : Parser) : Prop := (∃ phase, p.move = .wait phase) ∨ ∃ error, p.move = .fail error

/-- Every move makes `pending` smaller, so some move is the last one. -/
theorem exists_leads_stop (p : Parser) :
    ∃ (es : List Event) (q : Parser), Leads p es q ∧ q.Stops := by
  -- On what is pending, which is less after every move.
  induction hn : p.pending using Nat.strongRecOn generalizing p with
  | ind n ih =>
    cases hm : p.move with
    | wait phase => exact ⟨[], p, .refl p, .inl ⟨phase, hm⟩⟩
    | fail error => exact ⟨[], p, .refl p, .inr ⟨error, hm⟩⟩
    | next phase rest =>
      have hlt : Parser.pending { p with phase := phase, buffer := rest } < n := by
        have hr := length_of_move_next hm
        have hu := phase.unreported_le_one
        simp only [pending] at hn ⊢
        omega
      obtain ⟨es, q, hq, hs⟩ := ih _ hlt _ rfl
      exact ⟨es, q, .next hm hq, hs⟩
    | event e phase rest =>
      have hlt : (p.record e phase rest).pending < n := by
        rw [pending_record, ← hn]
        exact pending_of_move_event hm
      obtain ⟨es, q, hq, hs⟩ := ih _ hlt _ rfl
      exact ⟨e :: es, q, .event hm hq, hs⟩

namespace Leads

variable {p q : Parser} {es : List Event}

theorem events_eq (h : Leads p es q) : p.events = Run.after es q.events := by
  induction h with
  | refl p => rfl
  | next move later ih => rw [events_of_next move, ih]
  | event move later ih =>
    rw [events_of_event move, ih]
    rfl

theorem withBuffer (h : Leads p es q) : ∃ consumed, p.buffer = consumed ++ q.buffer ∧
    ∀ other, Run.Same (p.withBuffer (consumed ++ other)).events
      (Run.after es (q.withBuffer other).events) := by
  induction h with
  | refl p => exact ⟨[], rfl, fun other => .refl _⟩
  | @next p q phase rest es move later ih =>
    obtain ⟨consumed, hc, hes⟩ := ih
    obtain ⟨used, hb, hm⟩ := move_next_of_rest move
    have hc : rest = consumed ++ q.buffer := hc
    refine ⟨used ++ consumed, by simp [hb, hc], fun other => ?_⟩
    rw [List.append_assoc, events_of_next (hm _)]
    exact hes other
  | @event p q e phase rest es move later ih =>
    obtain ⟨consumed, hc, hes⟩ := ih
    have hc : rest = consumed ++ q.buffer := by
      rw [← hc]
      cases e <;> rfl
    rcases move_event_cases move with ⟨used, hb, hm⟩ | ⟨rfl, rfl, hx⟩
    · refine ⟨used ++ consumed, by simp [hb, hc], fun other => ?_⟩
      rw [List.append_assoc, events_of_event (hm _), record_withBuffer]
      exact Run.Same.after [e] (hes other)
    · -- The event has handed out all that there was, and then there can be no further move.
      obtain ⟨rfl, hq⟩ := List.append_eq_nil_iff.1 hc.symm
      refine ⟨p.buffer, by simp [hq], fun other => ?_⟩
      exact (events_of_exhausts move hx other).trans (Run.Same.after [_] (hes other))

/-- What every move preserves holds at the end of a run. -/
theorem invariant (holds : Parser → Prop)
    (next : ∀ p phase rest, holds p → p.move = .next phase rest →
      holds { p with phase := phase, buffer := rest })
    (event : ∀ p e phase rest, holds p → p.move = .event e phase rest →
      holds (p.record e phase rest)) (h : Leads p es q) (hp : holds p) : holds q := by
  induction h with
  | refl p => exact hp
  | next move later ih => exact ih (next _ _ _ hp move)
  | event move later ih => exact ih (event _ _ _ _ hp move)

theorem append (h : Leads p es q) (more : Bytes) :
    Run.Same (p.append more).events (Run.after es (q.append more).events) := by
  obtain ⟨consumed, hc, hes⟩ := h.withBuffer
  rw [Parser.append, hc, List.append_assoc]
  exact hes (q.buffer ++ more)

end Leads

section Waits

variable {p : Parser} {phase : Phase}

theorem isLastSoFar_of_line {b more line after : Bytes} (hn : Bytes.splitLine b = none)
    (hs : Bytes.splitLine (b ++ more) = some (line, after)) (hl : Chunk.isLastSoFar b = true) :
    Chunk.isLastSoFar (line ++ [Bytes.cr]) = true := by
  rcases Bytes.of_splitLine_append hn hs with ⟨tail, rfl⟩ | ⟨rfl, -⟩
  · rw [List.append_assoc]
    exact Chunk.isLastSoFar_append hl _
  · exact hl

theorem move_lastChunk {b : Bytes} (hp : p.phase = .chunkSize)
    (hl : Chunk.isLastSoFar b = true) (hn : Bytes.splitLine b = none) (more : Bytes) :
    (p.withBuffer (b ++ more)).move =
      Parser.move { p with phase := .lastChunk, buffer := b ++ more } := by
  simp only [move, withBuffer_phase, hp, moveChunkLine, withBuffer_buffer, withBuffer_limits,
    Chunk.isLastSoFar_append hl, ite_true]
  cases hs : Bytes.splitLine (b ++ more) with
  | none => rfl
  | some result =>
    obtain ⟨line, after⟩ := result
    have hlast := isLastSoFar_of_line hn hs hl
    cases hr : Chunk.readSize line with
    | error cause => simp only [hr]
    | ok n => simp only [hr, Chunk.readSize_eq_zero hlast hr, afterChunkSize]

theorem events_of_phase (h : Parser.move { p with phase := phase } = p.move) :
    Parser.events { p with phase := phase } = p.events := by
  cases hm : p.move with
  | wait next => rw [events_of_wait hm, events_of_wait (h.trans hm)]
  | fail error => rw [events_of_fail hm, events_of_fail (h.trans hm)]
  | next next rest => rw [events_of_next hm, events_of_next (h.trans hm)]
  | event e next rest =>
    rw [events_of_event hm, events_of_event (h.trans hm)]
    cases e <;> rfl

theorem events_of_waited (h : p.move = .wait phase) (more : Bytes) :
    Parser.events { p.append more with phase := phase } = (p.append more).events := by
  rcases move_wait_cases h with rfl | ⟨hp, rfl, hl, hn⟩
  · rfl
  · exact events_of_phase (move_lastChunk hp hl hn more).symm

theorem move_of_waited (h : p.move = .wait phase) :
    Parser.move { p with phase := phase } = .wait phase := by
  rcases move_wait_cases h with rfl | ⟨hp, rfl, hl, hn⟩
  · exact h
  · have hm := move_lastChunk hp hl hn []
    rw [List.append_nil, withBuffer_self, h] at hm
    exact hm.symm

theorem events_append_of_fail {error : ParseError}
    (h : ∀ more, (p.append more).move = .fail error) (more : Bytes) :
    (p.append more).events = p.events := by
  have h' : p.move = .fail error := by simpa using h []
  rw [events_of_fail (h more), events_of_fail h']
  rfl

theorem isLimit_of_pendingError {error : ParseError} (h : p.pendingError = some error) :
    error.isLimit = true := by
  unfold pendingError sectionError at h
  split at h
  · split at h <;> cases h
    rfl
  · split at h <;> cases h
    rfl
  · split at h <;> cases h
    rfl
  · obtain ⟨limit, -, rfl⟩ := Option.map_eq_some_iff.1 h
    rfl
  · obtain ⟨limit, -, rfl⟩ := Option.map_eq_some_iff.1 h
    rfl
  · cases h

end Waits

/-- The run ended because a bound was exceeded. -/
def Run.overBound (r : Run) : Bool := r.2.1.any ParseError.isLimit

/-- Octets that come later are read as if they had been there before, unless a bound is exceeded. -/
theorem events_append {p : Parser} (h : Run.overBound p.events = false) (more : Bytes) :
    Run.Same (p.append more).events (Run.andThen p.events fun q => (q.append more).events) := by
  obtain ⟨es, q, hl, hq⟩ := exists_leads_stop p
  have hp := hl.events_eq
  have hmore := hl.append more
  rcases hq with ⟨phase, hq⟩ | ⟨error, hq⟩
  · rw [← events_of_waited hq more] at hmore
    rw [events_of_wait hq] at hp
    rw [hp]
    simp only [Run.andThen, Run.after, List.append_nil]
    exact hmore
  · have hall : ∀ more, (q.append more).move = .fail error := by
      -- A failure that more octets would avoid is one over a bound, and there is none.
      rcases move_fail_cases hq with hall | ⟨-, -, hlimit⟩
      · exact hall
      · rw [events_of_fail hq] at hp
        simp [hp, Run.after, Run.overBound, isLimit_of_pendingError hlimit] at h
    rw [events_append_of_fail hall more, ← hp] at hmore
    rw [events_of_fail hq] at hp
    rw [hp] at hmore ⊢
    exact hmore

def Settled (p : Parser) : Prop := p.move = .wait p.phase

theorem settled_forMethod (method : String) (limits : Limits) :
    (forMethod method limits).Settled := by
  simp [Settled, forMethod, new, move, moveStatusLine, Bytes.splitLine, Limits.headTooLarge]

theorem settled_of_events {p q : Parser} {es : List Event} (h : p.events = (es, none, q)) :
    q.Settled := by
  obtain ⟨ds, r, hl, hr⟩ := exists_leads_stop p
  have hp := hl.events_eq
  rcases hr with ⟨phase, hr⟩ | ⟨error, hr⟩
  · rw [events_of_wait hr, h] at hp
    cases hp
    exact move_of_waited hr
  · rw [events_of_fail hr, h] at hp
    cases hp

namespace Settled

variable {p : Parser}

theorem events_eq (h : p.Settled) : p.events = ([], none, p) := events_of_wait h

theorem ne_failed (h : p.Settled) : p.phase ≠ .failed := by
  intro hf
  simp [Settled, move, hf] at h

theorem drain_eq (h : p.Settled) (data : Bytes) : p.drain data = (p.append data).events := by
  rw [drain, if_neg h.ne_failed]
  rfl

end Settled

end Parser
end HttpClient
