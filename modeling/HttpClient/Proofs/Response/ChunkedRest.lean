import HttpClient.Proofs.Response.ChunkedPart
import HttpClient.Proofs.Response.Roundtrip
set_option autoImplicit false

/-!
Reading a chunked body in the form in which requests are written. Of such a body a certain rest is
still to come, part of it in the buffer and the rest in fragments that have not arrived. Every move
goes on to a shorter rest, none fails, and the parser waits only for octets that are to come.
-/

namespace HttpClient

/-- The bound on size lines, if there is one, has room for a number of 64 bits and half of a line
ending. -/
def Limits.Roomy (l : Limits) : Prop := ∀ n, l.chunkLine = some n → 17 ≤ n

theorem Limits.roomy_presets : Limits.standard.Roomy ∧ Limits.unlimited.Roomy := by
  constructor
  · intro n h
    cases h
    decide
  · intro n h
    cases h

/-- What is still to come of a body in chunks. -/
inductive ChunkedRest where
  | sizes (chunks : List Bytes)
  | data (left : Bytes) (chunks : List Bytes)
  | ending (chunks : List Bytes)
  | trailers
  | whole
  | reported

namespace ChunkedRest

def encoded (chunks : List Bytes) : Bytes := chunks.flatMap Chunk.encode ++ Chunk.last

def octets : ChunkedRest → Bytes
  | .sizes chunks => encoded chunks
  | .data left chunks => left ++ (Bytes.crlf ++ encoded chunks)
  | .ending chunks => Bytes.crlf ++ encoded chunks
  | .trailers => Bytes.crlf
  | .whole | .reported => []

def payload : ChunkedRest → Bytes
  | .sizes chunks | .ending chunks => chunks.flatten
  | .data left chunks => left ++ chunks.flatten
  | .trailers | .whole | .reported => []

def reports : ChunkedRest → List Fields
  | .reported => []
  | _ => [.empty]

def Sized (chunks : List Bytes) : Prop :=
  ∀ chunk ∈ chunks, chunk ≠ [] ∧ chunk.length ≤ Numeral.wordLimit

instance (chunks : List Bytes) : Decidable (Sized chunks) :=
  inferInstanceAs (Decidable (∀ chunk ∈ chunks, chunk ≠ [] ∧ chunk.length ≤ Numeral.wordLimit))

/-- The phase and the buffer of a parser to which just that is still to come. -/
def At (phase : Phase) (buffer : Bytes) : ChunkedRest → Prop
  | .sizes chunks => Sized chunks ∧
    (phase = .chunkSize ∨ phase = .lastChunk ∧ Chunk.isLastSoFar buffer = true)
  | .data left chunks => Sized chunks ∧ left ≠ [] ∧ phase = .chunkData left.length
  | .ending chunks => Sized chunks ∧ phase = .chunkEnd
  | .trailers => phase = .trailers .empty 0
  | .whole => phase = .complete (some .empty)
  | .reported => phase = .complete none

/-- These events hand out what the one rest has before the other. -/
structure Gives (rest : ChunkedRest) (es : List Event) (next : ChunkedRest) : Prop where
  heads : es.flatMap Event.heads = []
  payload : rest.payload = es.flatMap Event.octets ++ next.payload
  reports : rest.reports = es.flatMap Event.trailers ++ next.reports

theorem Gives.refl (rest : ChunkedRest) : rest.Gives [] rest := ⟨rfl, rfl, rfl⟩

theorem Gives.trans {rest next last : ChunkedRest} {es ds : List Event} (h : rest.Gives es next)
    (h' : next.Gives ds last) : rest.Gives (es ++ ds) last where
  heads := by rw [List.flatMap_append, h.heads, h'.heads]; rfl
  payload := by rw [h.payload, h'.payload, List.flatMap_append, List.append_assoc]
  reports := by rw [h.reports, h'.reports, List.flatMap_append, List.append_assoc]

/-- What a move does to the rest, while `todo` has not arrived. -/
inductive Steps (p : Parser) (todo : Bytes) (rest : ChunkedRest) : Move → Prop where
  | wait {phase : Phase} (stands : rest.At phase p.buffer) (lacks : todo = [] → rest = .reported) :
      Steps p todo rest (.wait phase)
  | next {phase : Phase} {buffer : Bytes} (next : ChunkedRest) (stands : next.At phase buffer)
      (octets : buffer ++ todo = next.octets) (gives : rest.Gives [] next) :
      Steps p todo rest (.next phase buffer)
  | event {e : Event} {phase : Phase} {buffer : Bytes} (next : ChunkedRest)
      (stands : next.At phase buffer) (octets : buffer ++ todo = next.octets)
      (gives : rest.Gives [e] next) : Steps p todo rest (.event e phase buffer)

variable {p q : Parser} {todo line tail : Bytes} {rest : ChunkedRest} {chunks : List Bytes}

theorem splitLine_cases (unbroken : Bytes.splitLine line = none)
    (hb : p.buffer ++ todo = line ++ Bytes.crlf ++ tail) :
    Bytes.splitLine p.buffer = none ∧ p.buffer.length ≤ line.length + 1 ∧ todo ≠ [] ∨
      ∃ after, Bytes.splitLine p.buffer = some (line, after) ∧ after ++ todo = tail := by
  have hall : Bytes.splitLine (p.buffer ++ todo) = some (line, tail) :=
    hb ▸ Bytes.splitLine_crlf unbroken tail
  cases hs : Bytes.splitLine p.buffer with
  | none =>
    refine .inl ⟨rfl, ?_, ?_⟩
    · rcases Bytes.of_splitLine_append hs hall with ⟨more, rfl⟩ | ⟨hcut, -⟩
      · simp only [List.length_append]
        omega
      · simp [hcut]
    · rintro rfl
      rw [List.append_nil, hs] at hall
      cases hall
  | some result =>
    obtain ⟨found, after⟩ := result
    rw [Bytes.splitLine_append hs, Option.some.injEq, Prod.mk.injEq] at hall
    obtain ⟨rfl, hafter⟩ := hall
    exact .inr ⟨after, rfl, hafter⟩

theorem exists_sizeLine (sized : Sized chunks) :
    ∃ (line : Bytes) (n : Nat) (next : ChunkedRest),
      encoded chunks = line ++ Bytes.crlf ++ next.octets ∧
      Bytes.splitLine line = none ∧ line.length ≤ 16 ∧ Chunk.readSize line = .ok n ∧
      (∀ buffer, next.At (Parser.afterChunkSize n) buffer) ∧
      (ChunkedRest.sizes chunks).Gives [] next := by
  cases chunks with
  | nil =>
    refine ⟨[48], 0, .trailers, rfl, by decide, by decide, by decide +kernel, fun _ => rfl, ?_⟩
    exact ⟨rfl, rfl, rfl⟩
  | cons chunk chunks =>
    obtain ⟨⟨hne, hfits⟩, sized⟩ := List.forall_mem_cons.1 sized
    have hcr : ∀ c ∈ Numeral.print 16 chunk.length, c ≠ '\r' :=
      Numeral.print_chars (by decide) (by decide) (by decide)
    refine ⟨Bytes.ofChars (Numeral.print 16 chunk.length), chunk.length, .data chunk chunks, ?_,
      Bytes.splitLine_of_not_mem (Bytes.cr_not_mem_ofChars fun hm => hcr _ hm rfl), ?_,
      Chunk.readSize_print hfits, fun _ => ⟨sized, hne, ?_⟩, rfl, rfl, rfl⟩
    · simp [encoded, Chunk.encode, hne, octets]
    · exact Chunk.length_print_le hfits
    · exact Parser.afterChunkSize_pos (List.length_pos_iff.2 hne)

theorem At.append {phase : Phase} {buffer : Bytes} (h : rest.At phase buffer) (more : Bytes) :
    rest.At phase (buffer ++ more) := by
  cases rest with
  | sizes chunks =>
    obtain ⟨sized, hp⟩ := h
    exact ⟨sized, hp.imp_right fun ⟨hp, hl⟩ => ⟨hp, Chunk.isLastSoFar_append hl more⟩⟩
  | _ => exact h

theorem moveChunkLine_cases (roomy : p.limits.Roomy) (unbroken : Bytes.splitLine line = none)
    (short : line.length ≤ 16) {n : Nat} (reads : Chunk.readSize line = .ok n)
    (hb : p.buffer ++ todo = line ++ Bytes.crlf ++ tail) (wait : Phase) (sized : Nat → Phase) :
    p.moveChunkLine wait sized = .wait wait ∧ todo ≠ [] ∨
      ∃ after, p.buffer = line ++ Bytes.crlf ++ after ∧ after ++ todo = tail ∧
        p.moveChunkLine wait sized = .next (sized n) after := by
  have hfits : ∀ size ≤ 17, Limits.exceeded p.limits.chunkLine size = none := fun size hsize =>
    Limits.exceeded_eq_none_iff.2 fun n hn => Nat.le_trans hsize (roomy n hn)
  rcases splitLine_cases unbroken hb with ⟨hs, hlength, htodo⟩ | ⟨after, hs, hafter⟩
  · refine .inl ⟨?_, htodo⟩
    simp only [Parser.moveChunkLine, hs, hfits _ (Nat.le_trans hlength (Nat.succ_le_succ short))]
  · refine .inr ⟨after, Bytes.eq_of_splitLine hs, hafter, ?_⟩
    simp only [Parser.moveChunkLine, hs, hfits _ (Nat.le_succ_of_le short), reads]

theorem steps_sizes (roomy : p.limits.Roomy) (stands : (sizes chunks).At p.phase p.buffer)
    (hb : p.buffer ++ todo = (sizes chunks).octets) : Steps p todo (.sizes chunks) p.move := by
  obtain ⟨sized, hp⟩ := stands
  obtain ⟨line, n, next, henc, unbroken, short, reads, hnext, gives⟩ := exists_sizeLine sized
  have hline := hb.trans henc
  rcases hp with hp | ⟨hp, hlast⟩
  · rw [Parser.move, hp]
    rcases moveChunkLine_cases roomy unbroken short reads hline _ Parser.afterChunkSize with
      ⟨hm, htodo⟩ | ⟨after, -, hafter, hm⟩ <;> dsimp only <;> rw [hm]
    · refine .wait ⟨sized, ?_⟩ fun h => absurd h htodo
      split
      next hlast => exact .inr ⟨rfl, hlast⟩
      next => exact .inl rfl
    · exact .next next (hnext after) hafter gives
  · rw [Parser.move, hp]
    rcases moveChunkLine_cases roomy unbroken short reads hline .lastChunk
        (fun _ => .trailers .empty 0) with
      ⟨hm, htodo⟩ | ⟨after, hwhole, hafter, hm⟩ <;> dsimp only <;> rw [hm]
    · exact .wait ⟨sized, .inr ⟨rfl, hlast⟩⟩ fun h => absurd h htodo
    · -- The line that was known early to be the last one is the last one.
      rw [hwhole, ChunkedPart.isLastSoFar_line_end] at hlast
      obtain rfl := Chunk.readSize_eq_zero hlast reads
      exact .next next (hnext after) hafter gives

theorem steps_data {left : Bytes} (stands : (data left chunks).At p.phase p.buffer)
    (hb : p.buffer ++ todo = (data left chunks).octets) :
    Steps p todo (.data left chunks) p.move := by
  obtain ⟨sized, hne, hp⟩ := stands
  rw [Parser.move_chunkData p _ hp]
  by_cases hbuffer : p.buffer = []
  · rw [Parser.takeBody_nil hbuffer]
    refine .wait ⟨sized, hne, rfl⟩ ?_
    rintro rfl
    simp [hbuffer, octets, Bytes.crlf] at hb
  have hm := Parser.takeBody_eq (List.length_pos_iff.2 hne) hbuffer Parser.afterChunkData
    (.chunkData left.length)
  obtain ⟨taken, he, -, hwhole, hle, hphase⟩ := Parser.event_of_takeBody hm
  rw [hm, he, hphase]
  generalize p.buffer.drop left.length = after at hwhole ⊢
  rw [hwhole, List.append_assoc] at hb
  obtain ⟨later, rfl, hlater⟩ : ∃ later, left = taken ++ later ∧
      after ++ todo = later ++ (Bytes.crlf ++ encoded chunks) := by
    rcases List.append_eq_append_iff.1 hb with ⟨later, hleft, hrest⟩ | ⟨more, htaken, hrest⟩
    · exact ⟨later, hleft, hrest⟩
    · rw [htaken, List.length_append] at hle
      obtain rfl : more = [] := List.length_eq_zero_iff.1 (by omega)
      exact ⟨[], by simpa using htaken.symm, by simpa using hrest.symm⟩
  rw [List.length_append, Nat.add_sub_cancel_left]
  cases later with
  | nil =>
    exact .event (.ending chunks) ⟨sized, rfl⟩ hlater ⟨rfl, by simp [payload, Event.octets], rfl⟩
  | cons b later =>
    exact .event (.data (b :: later) chunks) ⟨sized, List.cons_ne_nil b later, rfl⟩ hlater
      ⟨rfl, by simp [payload, Event.octets], rfl⟩

theorem steps_ending (stands : (ending chunks).At p.phase p.buffer)
    (hb : p.buffer ++ todo = (ending chunks).octets) : Steps p todo (.ending chunks) p.move := by
  obtain ⟨sized, hp⟩ := stands
  have hwait (htodo : todo ≠ []) : Steps p todo (.ending chunks) (.wait .chunkEnd) :=
    .wait ⟨sized, rfl⟩ fun h => absurd h htodo
  simp only [Parser.move, hp, Parser.moveChunkEnd]
  cases hbuffer : p.buffer with
  | nil =>
    refine hwait ?_
    rintro rfl
    simp [hbuffer, octets, Bytes.crlf] at hb
  | cons b after =>
    cases after with
    | nil =>
      obtain ⟨rfl, htodo⟩ : b = Bytes.cr ∧ todo = Bytes.lf :: encoded chunks := by
        simpa [hbuffer, octets, Bytes.crlf] using hb
      exact hwait (by simp [htodo])
    | cons c after =>
      obtain ⟨rfl, rfl, hafter⟩ :
          b = Bytes.cr ∧ c = Bytes.lf ∧ after ++ todo = encoded chunks := by
        simpa [hbuffer, octets, Bytes.crlf] using hb
      exact .next (.sizes chunks) ⟨sized, .inl rfl⟩ hafter ⟨rfl, rfl, rfl⟩

theorem steps_trailers (hp : p.phase = .trailers .empty 0) (hb : p.buffer ++ todo = Bytes.crlf) :
    Steps p todo .trailers p.move := by
  have hline : p.buffer ++ todo = [] ++ Bytes.crlf ++ [] := hb
  simp only [Parser.move, hp, Parser.moveTrailers]
  rcases splitLine_cases rfl hline with ⟨hs, hlength, htodo⟩ | ⟨after, hs, hafter⟩
  · have hfits : p.limits.headTooLarge (0 + p.buffer.length) = false :=
      Limits.headTooLarge_eq_false_iff.2 fun hbound => by
        simp only [List.length_nil] at hlength
        omega
    simp only [hs, hfits]
    exact .wait rfl fun h => absurd h htodo
  · simp only [hs]
    exact .next .whole rfl hafter ⟨rfl, rfl, rfl⟩

/-- Every move goes on to what is then still to come. -/
theorem steps (roomy : p.limits.Roomy) (stands : rest.At p.phase p.buffer)
    (hb : p.buffer ++ todo = rest.octets) : Steps p todo rest p.move := by
  cases rest with
  | sizes chunks => exact steps_sizes roomy stands hb
  | data left chunks => exact steps_data stands hb
  | ending chunks => exact steps_ending stands hb
  | trailers => exact steps_trailers stands hb
  | whole =>
    have hp : p.phase = .complete (some .empty) := stands
    simp only [Parser.move, hp]
    exact .event .reported rfl hb ⟨rfl, rfl, rfl⟩
  | reported =>
    have hp : p.phase = .complete none := stands
    simp only [Parser.move, hp]
    exact .wait rfl fun _ => rfl

/-- The parser stands before that rest, and its bounds do not matter. -/
structure Before (p : Parser) (todo : Bytes) (rest : ChunkedRest) : Prop where
  roomy : p.limits.Roomy
  stands : rest.At p.phase p.buffer
  octets : p.buffer ++ todo = rest.octets

theorem before_of_leads {es : List Event} (h : Parser.Leads p es q) (hp : Before p todo rest) :
    ∃ next, Before q todo next ∧ rest.Gives es next := by
  induction h generalizing rest with
  | refl p => exact ⟨rest, hp, .refl rest⟩
  | next move later ih =>
    have hs := steps hp.roomy hp.stands hp.octets
    rw [move] at hs
    cases hs with
    | next next stands octets gives =>
      obtain ⟨last, hlast, hgives⟩ := ih ⟨hp.roomy, stands, octets⟩
      exact ⟨last, hlast, gives.trans hgives⟩
  | @event p q e phase after es move later ih =>
    have hs := steps hp.roomy hp.stands hp.octets
    rw [move] at hs
    cases hs with
    | event next stands octets gives =>
      have hrecord : Before (p.record e phase after) todo next := by
        cases e <;> exact ⟨hp.roomy, stands, octets⟩
      obtain ⟨last, hlast, hgives⟩ := ih hrecord
      exact ⟨last, hlast, gives.trans hgives⟩

theorem events_of_before (hp : Before p todo rest) : ∃ es q next,
    p.events = (es, none, q) ∧ Before q todo next ∧ rest.Gives es next := by
  obtain ⟨es, q, hl, hstop⟩ := Parser.exists_leads_stop p
  obtain ⟨next, hq, gives⟩ := before_of_leads hl hp
  have hs := steps hq.roomy hq.stands hq.octets
  -- Where a rest is to come no move fails, so the moves stop by waiting.
  rcases hstop with ⟨phase, hm⟩ | ⟨error, hm⟩
  · rw [hm] at hs
    cases hs with
    | wait stands lacks =>
      refine ⟨es, { q with phase := phase }, next, ?_, ⟨hq.roomy, stands, hq.octets⟩, gives⟩
      rw [hl.events_eq, Parser.events_of_wait hm]
      simp [Parser.Run.after]
  · rw [hm] at hs
    cases hs

theorem drainAll_of_before (hs : p.Settled) (fs : List Bytes) (hp : Before p fs.flatten rest) :
    ∃ es q, p.drainAll fs = (es, none, q) ∧ rest.Gives es .reported ∧
      Before q [] .reported := by
  induction fs generalizing p rest with
  | nil =>
    have hm := steps hp.roomy hp.stands hp.octets
    rw [hs] at hm
    cases hm with
    | wait stands lacks =>
      obtain rfl := lacks rfl
      exact ⟨[], p, rfl, .refl _, hp⟩
  | cons data fs ih =>
    have happend : Before (p.append data) fs.flatten rest := by
      refine ⟨hp.roomy, hp.stands.append data, ?_⟩
      rw [← hp.octets, List.flatten_cons, ← List.append_assoc]
      rfl
    obtain ⟨es, q, next, hevents, hq, gives⟩ := events_of_before happend
    rw [← hs.drain_eq] at hevents
    obtain ⟨ds, last, hlast, hgives, hend⟩ := ih (Parser.settled_of_drain hs hevents) hq
    refine ⟨es ++ ds, last, ?_, gives.trans hgives, hend⟩
    rw [Parser.drainAll_cons, hevents]
    simp only [Parser.Run.andThen, hlast, Parser.Run.after]

end ChunkedRest

theorem Parser.drainAll_encoded {p : Parser} (hp : p.phase = .chunkSize) (hbuffer : p.buffer = [])
    (roomy : p.limits.Roomy) {chunks fs : List Bytes} (sized : ChunkedRest.Sized chunks)
    (hfs : fs.flatten = ChunkedRest.encoded chunks) :
    ∃ es q, p.drainAll fs = (es, none, q) ∧ es.flatMap Event.heads = [] ∧
      es.flatMap Event.octets = chunks.flatten ∧ es.flatMap Event.trailers = [.empty] ∧
      q.phase = .complete none ∧ q.buffer = [] := by
  have hsettled : p.Settled := by
    have hfits : Limits.exceeded p.limits.chunkLine 0 = none :=
      Limits.exceeded_eq_none_iff.2 fun _ _ => Nat.zero_le _
    simp [Settled, move, hp, hbuffer, moveChunkLine, Bytes.splitLine, hfits, Chunk.isLastSoFar]
  have hbefore : ChunkedRest.Before p fs.flatten (.sizes chunks) :=
    ⟨roomy, ⟨sized, .inl hp⟩, by rw [hbuffer, hfs]; rfl⟩
  obtain ⟨es, q, hrun, gives, hend⟩ := ChunkedRest.drainAll_of_before hsettled fs hbefore
  obtain ⟨hbuffer, -⟩ := List.append_eq_nil_iff.1 hend.octets
  refine ⟨es, q, hrun, gives.heads, ?_, ?_, hend.stands, hbuffer⟩
  · simpa [ChunkedRest.payload] using gives.payload.symm
  · simpa [ChunkedRest.reports] using gives.reports.symm

end HttpClient
