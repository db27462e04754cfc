import HttpClient.Proofs.Response.ChunkedPart
import HttpClient.Proofs.Response.Reports
set_option autoImplicit false

/-!
Where a parser stands in the octets it was fed. What it has taken in is a beginning of a response in
the grammar: interim heads, the final head that it has reported, and a body of which it has handed
out what came. This holds at the start, and every move, every further octet and the end of the
connection keep it.
-/

namespace HttpClient

/-- Of a body with this framing these octets have been taken in and this payload handed out. -/
inductive Framing.Came (l : Limits) (phase : Phase) (buffer : Bytes) :
    Framing → Bytes → Bytes → Prop where
  | plain {framing : Framing} {octets : Bytes} (unchunked : framing ≠ .chunked)
      (leaves : framing.Leaves octets.length phase) : Came l phase buffer framing octets octets
  | chunked (part : ChunkedPart) (stands : part.At phase buffer) (within : part.Within l) :
      Came l phase buffer .chunked part.octets part.payload

namespace Parser

structure Admits (p : Parser) (heads : WrittenHeads) (framing : Framing) : Prop where
  fits : p.limits.Allows heads.final.bytes.length heads.final.lines.length
  framed : Framing.resolve heads.final.fields (p.noBody heads.final.start.status) = .ok framing

/-- The octets that are behind a parser in this phase when it has reported these events. -/
inductive Position (p : Parser) (phase : Phase) (buffer : Bytes) : Bytes → List Event → Prop where
  | statusLine (interim : List WrittenHead)
      (passed : ∀ h ∈ interim, isInterim h.start.status = true) (awaits : phase = .statusLine) :
      Position p phase buffer (interim.flatMap WrittenHead.bytes) []
  | fieldLines (interim : List WrittenHead)
      (passed : ∀ h ∈ interim, isInterim h.start.status = true) (h : WrittenHead)
      (fits : p.limits.Allows h.opening.length h.lines.length)
      (awaits : phase = .fieldLines h.start h.fields h.opening.length) :
      Position p phase buffer (interim.flatMap WrittenHead.bytes ++ h.opening) []
  | body (heads : WrittenHeads) {framing : Framing} (admits : p.Admits heads framing)
      (bodiless : Bool) {octets : Bytes} (pieces : List Bytes)
      (came : framing.Came p.limits phase buffer octets pieces.flatten) :
      Position p phase buffer (heads.bytes ++ octets)
        (.head heads.final.head bodiless :: pieces.map .chunk)
  | ended (heads : WrittenHeads) {framing : Framing} (admits : p.Admits heads framing)
      (bodiless : Bool) {octets left : Bytes} (pieces : List Bytes) {trailers : Fields}
      (came : framing.Came p.limits (.complete (some trailers)) left octets pieces.flatten)
      (ends : phase = .complete none) :
      Position p phase buffer (heads.bytes ++ octets)
        (.head heads.final.head bodiless :: (pieces.map .chunk ++ [.complete trailers]))

end Parser

namespace Framing

variable {l : Limits} {framing : Framing} {octets payload rest buffer : Bytes} {p : Parser}
  {phase : Phase}

namespace Came

theorem start (l : Limits) (framing : Framing) (buffer : Bytes) :
    framing.Came l (Parser.bodyPhase framing) buffer [] [] := by
  by_cases hf : framing = .chunked
  · subst hf
    exact .chunked (.between []) (.inl rfl) ⟨by simp [ChunkedPart.sizeLines], l.allows_empty⟩
  · exact .plain hf (Parser.leaves_bodyPhase framing)

theorem next (h : framing.Came p.limits p.phase p.buffer octets payload)
    (hm : p.move = .next phase rest) : ∃ taken, p.buffer = taken ++ rest ∧
      framing.Came p.limits phase rest (octets ++ taken) payload := by
  cases h with
  | plain unchunked leaves => exact absurd hm (Parser.ne_next_of_leaves unchunked leaves)
  | chunked part stands within =>
    obtain ⟨taken, next, grows⟩ := part.next stands hm
    refine ⟨taken, grows.buffer, ?_⟩
    have came := Came.chunked next grows.stands (grows.within within)
    rwa [grows.octets, grows.payload, List.append_nil] at came

theorem chunk {data : Bytes} (h : framing.Came p.limits p.phase p.buffer octets payload)
    (hm : p.move = .event (.chunk data) phase rest) : p.buffer = data ++ rest ∧
      framing.Came p.limits phase rest (octets ++ data) (payload ++ data) := by
  refine ⟨Parser.buffer_of_chunk hm, ?_⟩
  cases h with
  | plain unchunked leaves =>
    rcases Parser.leaves_of_event leaves hm with ⟨_, he, hl⟩ | ⟨⟨_, he⟩, -⟩
    · cases he
      exact .plain unchunked (by rwa [List.length_append])
    · cases he
  | chunked part stands within =>
    rcases part.event stands hm with ⟨_, next, he, grows⟩ | ⟨_, -, he, -⟩
    · cases he
      have came := Came.chunked next grows.stands (grows.within within)
      rwa [grows.octets, grows.payload] at came
    · cases he

theorem wait (h : framing.Came p.limits p.phase p.buffer octets payload)
    (hm : p.move = .wait phase) : framing.Came p.limits phase p.buffer octets payload := by
  cases h with
  | plain unchunked leaves => exact .plain unchunked (Parser.leaves_of_wait leaves hm)
  | chunked part stands within => exact .chunked part (part.wait stands hm) within

theorem append (h : framing.Came l phase buffer octets payload) (more : Bytes) :
    framing.Came l phase (buffer ++ more) octets payload := by
  cases h with
  | plain unchunked leaves => exact .plain unchunked leaves
  | chunked part stands within => exact .chunked part (stands.append more) within

theorem finish (h : framing.Came l p.phase p.buffer octets payload) :
    framing.Came l p.finish.phase p.finish.buffer octets payload := by
  cases h with
  | plain unchunked leaves => exact .plain unchunked (Parser.leaves_finish leaves)
  | chunked part stands within =>
    have hp : p.phase ≠ .untilClose := by
      intro hp
      cases part with
      | between chunks => rcases stands with h | ⟨h, -⟩ <;> cases hp.symm.trans h
      | _ => cases hp.symm.trans stands
    rw [show p.finish = p by simp [Parser.finish, hp]]
    exact .chunked part stands within

theorem part_eq_body (h : framing.Came l phase buffer octets payload) : phase.part = .body := by
  cases h with
  | plain unchunked leaves => exact Parser.part_of_leaves leaves
  | chunked part stands within =>
    cases part with
    | between chunks => rcases stands with rfl | ⟨rfl, -⟩ <;> rfl
    | _ =>
      cases stands
      rfl

end Came
end Framing

namespace Parser

namespace Position

variable {p q : Parser} {taken rest : Bytes} {es : List Event} {phase : Phase}

theorem next (h : p.Position q.phase q.buffer taken es) (hl : q.limits = p.limits)
    (hm : q.move = .next phase rest) :
    ∃ more, q.buffer = more ++ rest ∧ p.Position phase rest (taken ++ more) es := by
  cases h with
  | statusLine interim passed awaits =>
    obtain ⟨start, line, valid, written, hb, hsize, rfl⟩ := next_of_statusLine awaits hm
    have fits : p.limits.Allows (line ++ Bytes.crlf).length 0 :=
      ⟨Limits.headTooLarge_eq_false_iff.1 (hl ▸ hsize), fun _ _ => Nat.zero_le _⟩
    refine ⟨line ++ Bytes.crlf, hb, ?_⟩
    simpa [WrittenHead.opening] using @Position.fieldLines p _ rest interim passed
      ⟨start, line, [], valid, written⟩ (by simpa [WrittenHead.opening] using fits)
      (by simp [WrittenHead.opening, WrittenHead.fields, Fields.empty])
  | fieldLines interim passed head fits awaits =>
    rcases next_of_fieldLines awaits hm with ⟨l, hb, allows, rfl⟩ | ⟨hi, hb, -, rfl⟩
    · refine ⟨l.bytes, hb, ?_⟩
      have fits' : p.limits.Allows (head.push l).opening.length (head.push l).lines.length := by
        rw [hl, head.count_fields] at allows
        rwa [head.opening_push, List.length_append, head.lines_push, List.length_append]
      rw [List.append_assoc, ← head.opening_push]
      refine .fieldLines interim passed (head.push l) fits' ?_
      rw [head.opening_push, List.length_append, head.fields_push]
      rfl
    · refine ⟨Bytes.crlf, hb, ?_⟩
      have passed' : ∀ h ∈ interim ++ [head], isInterim h.start.status = true :=
        List.forall_mem_append.2 ⟨passed, List.forall_mem_singleton.2 hi⟩
      simpa [WrittenHead.bytes] using @Position.statusLine p _ rest _ passed' rfl
  | body heads admits bodiless pieces came =>
    obtain ⟨more, hb, came⟩ := (hl ▸ came).next hm
    refine ⟨more, hb, ?_⟩
    rw [List.append_assoc]
    exact .body heads admits bodiless pieces (hl ▸ came)
  | ended heads admits bodiless pieces came ends => simp [move, ends] at hm

theorem headed {head : ResponseHead} {bodiless : Bool}
    (h : p.Position q.phase q.buffer taken es) (hl : q.limits = p.limits)
    (hn : q.noBody = p.noBody) (hm : q.move = .event (.head head bodiless) phase rest) :
    es = [] ∧ ∃ (heads : WrittenHeads) (framing : Framing), p.Admits heads framing ∧
      q.buffer = Bytes.crlf ++ rest ∧ taken ++ Bytes.crlf = heads.bytes ∧
      heads.final.head = head ∧ phase = bodyPhase framing := by
  cases h with
  | statusLine interim passed awaits => exact absurd hm (ne_event_of_statusLine awaits)
  | fieldLines interim passed final fits awaits =>
    obtain ⟨hi, hb, hsize, _, framing, he, hframed, rfl⟩ := event_of_fieldLines awaits hm
    cases he
    have fits' : p.limits.Allows final.bytes.length final.lines.length := by
      refine ⟨?_, fits.fields⟩
      simpa [WrittenHead.bytes, Bytes.crlf] using Limits.headTooLarge_eq_false_iff.1 (hl ▸ hsize)
    exact ⟨rfl, ⟨interim, final, passed, hi⟩, framing, ⟨fits', hn ▸ hframed⟩, hb,
      List.append_assoc .., rfl, rfl⟩
  | body heads admits _ pieces came =>
    rcases event_of_body came.part_eq_body hm with ⟨⟨_, he⟩, -⟩ | ⟨⟨_, he⟩, -⟩ <;> cases he
  | ended heads admits _ pieces came ends => simp [move, ends] at hm

theorem event {e : Event} (h : p.Position q.phase q.buffer taken es) (hl : q.limits = p.limits)
    (hn : q.noBody = p.noBody) (hm : q.move = .event e phase rest) :
    ∃ more, q.buffer = more ++ rest ∧ p.Position phase rest (taken ++ more) (es ++ [e]) := by
  cases e with
  | head head bodiless =>
    obtain ⟨rfl, heads, framing, admits, hb, htaken, rfl, rfl⟩ := h.headed hl hn hm
    refine ⟨Bytes.crlf, hb, ?_⟩
    rw [htaken]
    simpa using Position.body heads admits bodiless [] (Framing.Came.start p.limits framing rest)
  | chunk data =>
    cases h with
    | body heads admits bodiless pieces came =>
      obtain ⟨hb, came⟩ := (hl ▸ came).chunk hm
      refine ⟨data, hb, ?_⟩
      rw [List.append_assoc]
      simpa using Position.body heads admits bodiless (pieces ++ [data]) (by simpa [hl] using came)
    | statusLine interim passed awaits => exact absurd hm (ne_event_of_statusLine awaits)
    | fieldLines interim passed final fits awaits =>
      obtain ⟨-, -, -, _, _, he, -⟩ := event_of_fieldLines awaits hm
      cases he
    | ended heads admits _ pieces came ends => simp [move, ends] at hm
  | complete trailers =>
    obtain ⟨hp, rfl, rfl⟩ := phase_of_complete hm
    refine ⟨[], rfl, ?_⟩
    rw [List.append_nil]
    cases h with
    | body heads admits bodiless pieces came =>
      rw [hp] at came
      exact .ended heads admits bodiless pieces came rfl
    | statusLine interim passed awaits => cases hp.symm.trans awaits
    | fieldLines interim passed final fits awaits => cases hp.symm.trans awaits
    | ended heads admits _ pieces came ends => cases hp.symm.trans ends

theorem wait (h : p.Position q.phase q.buffer taken es) (hl : q.limits = p.limits)
    (hm : q.move = .wait phase) : p.Position phase q.buffer taken es := by
  have kept (hp : q.phase ≠ .chunkSize) : phase = q.phase :=
    (move_wait_cases hm).resolve_right fun hlast => hp hlast.1
  cases h with
  | statusLine interim passed awaits =>
    exact .statusLine interim passed ((kept (by simp [awaits])).trans awaits)
  | fieldLines interim passed head fits awaits =>
    exact .fieldLines interim passed head fits ((kept (by simp [awaits])).trans awaits)
  | body heads admits bodiless pieces came =>
    exact .body heads admits bodiless pieces (hl ▸ (hl ▸ came).wait hm)
  | ended heads admits bodiless pieces came ends =>
    exact .ended heads admits bodiless pieces came ((kept (by simp [ends])).trans ends)

theorem append {buffer : Bytes} (h : p.Position phase buffer taken es) (more : Bytes) :
    p.Position phase (buffer ++ more) taken es := by
  cases h with
  | statusLine interim passed awaits => exact .statusLine interim passed awaits
  | fieldLines interim passed head fits awaits =>
    exact .fieldLines interim passed head fits awaits
  | body heads admits bodiless pieces came =>
    exact .body heads admits bodiless pieces (came.append more)
  | ended heads admits bodiless pieces came ends =>
    exact .ended heads admits bodiless pieces came ends

theorem finish (h : p.Position q.phase q.buffer taken es) :
    p.Position q.finish.phase q.finish.buffer taken es := by
  have hsame (hp : q.phase ≠ .untilClose) : q.finish = q := by simp [Parser.finish, hp]
  cases h with
  | statusLine interim passed awaits =>
    rw [hsame (by simp [awaits])]
    exact .statusLine interim passed awaits
  | fieldLines interim passed head fits awaits =>
    rw [hsame (by simp [awaits])]
    exact .fieldLines interim passed head fits awaits
  | body heads admits bodiless pieces came =>
    exact .body heads admits bodiless pieces came.finish
  | ended heads admits bodiless pieces came ends =>
    rw [hsame (by simp [ends])]
    exact .ended heads admits bodiless pieces came ends

end Position

/-- The one parser, fed with these octets and having reported these events, has become the other:
what is not in its buffer is behind it. -/
structure Placed (p : Parser) (data : Bytes) (es : List Event) (q : Parser) : Prop where
  limits : q.limits = p.limits
  noBody : q.noBody = p.noBody
  position : ∃ taken, data = taken ++ q.buffer ∧ p.Position q.phase q.buffer taken es

namespace Placed

variable {p q r : Parser} {data more : Bytes} {es ds : List Event}

theorem start (hp : p.phase = .statusLine) (hb : p.buffer = []) : p.Placed [] [] p :=
  ⟨rfl, rfl, [], by rw [hb]; rfl, .statusLine [] (by simp) hp⟩

theorem append (h : p.Placed data es q) (more : Bytes) :
    p.Placed (data ++ more) es (q.append more) := by
  obtain ⟨taken, rfl, position⟩ := h.position
  exact ⟨h.limits, h.noBody, taken, List.append_assoc .., position.append more⟩

theorem finish (h : p.Placed data es q) : p.Placed data es q.finish := by
  obtain ⟨taken, hdata, position⟩ := h.position
  have hsame : q.finish.limits = q.limits ∧ q.finish.noBody = q.noBody ∧
      q.finish.buffer = q.buffer := by
    unfold Parser.finish
    split <;> exact ⟨rfl, rfl, rfl⟩
  exact ⟨hsame.1.trans h.limits, hsame.2.1.trans h.noBody, taken, hsame.2.2 ▸ hdata,
    position.finish⟩

theorem wait {phase : Phase} (h : p.Placed data es q) (hm : q.move = .wait phase) :
    p.Placed data es { q with phase := phase } := by
  obtain ⟨taken, hdata, position⟩ := h.position
  exact ⟨h.limits, h.noBody, taken, hdata, position.wait h.limits hm⟩

theorem leads (h : p.Placed data es q) (hl : q.Leads ds r) : p.Placed data (es ++ ds) r := by
  induction hl generalizing es with
  | refl q => rwa [List.append_nil]
  | @next q r phase rest ds hm later ih =>
    obtain ⟨taken, rfl, position⟩ := h.position
    obtain ⟨used, hb, position⟩ := position.next h.limits hm
    exact ih ⟨h.limits, h.noBody, taken ++ used, by rw [hb, List.append_assoc], position⟩
  | @event q r e phase rest ds hm later ih =>
    obtain ⟨taken, rfl, position⟩ := h.position
    obtain ⟨used, hb, position⟩ := position.event h.limits h.noBody hm
    have placed : p.Placed (taken ++ q.buffer) (es ++ [e]) (q.record e phase rest) := by
      refine ⟨?_, ?_, taken ++ used, ?_, ?_⟩
      · rw [← h.limits]
        cases e <;> rfl
      · rw [← h.noBody]
        cases e <;> rfl
      · rw [hb, List.append_assoc]
        cases e <;> rfl
      · cases e <;> exact position
    simpa using ih placed

theorem feed {e : Option Event} (h : p.Placed data es q) (hf : q.feed more = (.ok e, r)) :
    p.Placed (data ++ more) (es ++ e.toList) r := by
  unfold Parser.feed at hf
  split at hf
  · cases hf
  have hplaced := h.append more
  cases e with
  | some e => exact hplaced.leads (leads_of_advance_some hf)
  | none =>
    obtain ⟨s, hs, hw, hr⟩ := leads_of_advance_none hf
    rw [hr]
    exact (hplaced.leads hs).wait hw

end Placed

/-- Whatever is fed, the octets that a parser has taken in are read by the grammar. -/
theorem Reports.placed {p q : Parser} {data : Bytes} {es : List Event} (h : p.Reports data es q)
    (hp : p.phase = .statusLine) (hb : p.buffer = []) : p.Placed data es q := by
  induction h with
  | start => exact .start hp hb
  | feed reports feed ih => exact ih.feed feed
  | finish reports ih => exact ih.finish

end Parser
end HttpClient
