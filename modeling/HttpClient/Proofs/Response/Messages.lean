import HttpClient.Proofs.Response.Fragments
set_option autoImplicit false

namespace HttpClient

inductive Part where
  | head
  | body
  | ended
  | failed
  deriving DecidableEq

def Phase.part : Phase → Part
  | .statusLine | .fieldLines .. => .head
  | .complete none => .ended
  | .failed => .failed
  | _ => .body

theorem Phase.eq_of_ended {phase : Phase} (h : phase.part = .ended) : phase = .complete none := by
  unfold part at h
  split at h <;> first | rfl | cases h

namespace Parser

theorem part_bodyPhase (framing : Framing) : (bodyPhase framing).part = .body := by
  unfold bodyPhase
  split <;> rfl

section Parts

variable {p q : Parser} {e : Event} {phase : Phase} {rest : Bytes} {es : List Event}

theorem next_of_head (hp : p.phase.part = .head) (h : p.move = .next phase rest) :
    phase.part = .head := by
  cases hq : p.phase with
  | statusLine =>
    simp only [move, hq, moveStatusLine, headTooLarge] at h
    repeat' split at h
    all_goals cases h
    rfl
  | fieldLines start fields used =>
    simp only [move, hq, moveFieldLines, endHead, headTooLarge] at h
    repeat' split at h
    all_goals cases h
    all_goals rfl
  | complete trailers => cases trailers <;> simp [hq, Phase.part] at hp
  | _ => simp [hq, Phase.part] at hp

theorem framed_of_head (hp : p.phase.part = .head) (h : p.move = .event e phase rest) :
    ∃ head framing, e = .head head (decide (framing = .empty ∨ framing = .length 0)) ∧
      Framing.resolve head.fields (p.noBody head.start.status) = .ok framing ∧
      phase = bodyPhase framing := by
  cases hq : p.phase with
  | statusLine =>
    simp only [move, hq, moveStatusLine, headTooLarge] at h
    repeat' split at h
    all_goals cases h
  | fieldLines start fields used =>
    simp only [move, hq, moveFieldLines, endHead, headTooLarge] at h
    repeat' split at h
    all_goals cases h
    exact ⟨_, _, rfl, ‹Framing.resolve _ _ = .ok _›, rfl⟩
  | complete trailers => cases trailers <;> simp [hq, Phase.part] at hp
  | _ => simp [hq, Phase.part] at hp

theorem event_of_head (hp : p.phase.part = .head) (h : p.move = .event e phase rest) :
    ∃ head bodiless framing, e = .head head bodiless ∧
      Framing.resolve head.fields (p.noBody head.start.status) = .ok framing ∧
      phase = bodyPhase framing := by
  obtain ⟨head, framing, he, hr, hphase⟩ := framed_of_head hp h
  exact ⟨head, _, framing, he, hr, hphase⟩

theorem next_of_body (hp : p.phase.part = .body) (h : p.move = .next phase rest) :
    phase.part = .body := by
  cases hq : p.phase with
  | chunkSize =>
    simp only [move, hq] at h
    obtain ⟨size, rfl⟩ := next_of_moveChunkLine h
    cases size <;> rfl
  | lastChunk =>
    simp only [move, hq] at h
    obtain ⟨size, rfl⟩ := next_of_moveChunkLine h
    rfl
  | chunkEnd =>
    simp only [move, hq, moveChunkEnd] at h
    repeat' split at h
    all_goals cases h
    rfl
  | trailers fields used =>
    simp only [move, hq, moveTrailers, headTooLarge] at h
    repeat' split at h
    all_goals cases h
    all_goals rfl
  | counted left => simp only [move, hq, takeBody_ne_next] at h
  | chunkData left => simp only [move, hq, takeBody_ne_next] at h
  | untilClose => simp only [move, hq, takeBody_ne_next] at h
  | complete trailers => cases trailers <;> simp [move, hq] at h
  | _ => simp [hq, Phase.part] at hp

theorem takeBody_event {left : Nat} {later : Nat → Phase} {wait : Phase}
    (hl : ∀ n, (later n).part = .body)
    (h : p.takeBody left later wait = .event e phase rest) :
    (∃ data, e = .chunk data) ∧ phase.part = .body := by
  unfold takeBody at h
  split at h <;> cases h
  exact ⟨⟨_, rfl⟩, hl _⟩

theorem event_of_body (hp : p.phase.part = .body) (h : p.move = .event e phase rest) :
    (∃ data, e = .chunk data) ∧ phase.part = .body ∨
      (∃ trailers, e = .complete trailers) ∧ phase.part = .ended := by
  cases hq : p.phase with
  | counted left =>
    rw [move_counted p left hq] at h
    exact .inl (takeBody_event (fun n => by cases n <;> rfl) h)
  | chunkData left =>
    rw [move_chunkData p left hq] at h
    exact .inl (takeBody_event (fun n => by cases n <;> rfl) h)
  | untilClose =>
    rw [move_untilClose p hq] at h
    exact .inl (takeBody_event (fun n => rfl) h)
  | complete trailers =>
    cases trailers <;> simp only [move, hq] at h <;> cases h
    exact .inr ⟨⟨_, rfl⟩, rfl⟩
  | chunkSize => simp only [move, hq, moveChunkLine_ne_event] at h
  | lastChunk => simp only [move, hq, moveChunkLine_ne_event] at h
  | chunkEnd =>
    simp only [move, hq, moveChunkEnd] at h
    repeat' split at h
    all_goals cases h
  | trailers fields used =>
    simp only [move, hq, moveTrailers, headTooLarge] at h
    repeat' split at h
    all_goals cases h
  | _ => simp [hq, Phase.part] at hp

theorem move_of_ended (hp : p.phase.part = .ended) : p.move = .wait (.complete none) := by
  rw [move, Phase.eq_of_ended hp]

theorem move_of_failed (hp : p.phase.part = .failed) : p.move = .fail .stopped := by
  have hq : p.phase = .failed := by
    cases hq : p.phase with
    | complete trailers => cases trailers <;> simp [hq, Phase.part] at hp
    | failed => rfl
    | _ => simp [hq, Phase.part] at hp
  rw [move, hq]

theorem untilClose_of_event (hp : p.phase = .untilClose) (h : p.move = .event e phase rest) :
    phase = .untilClose := by
  rw [move_untilClose p hp] at h
  unfold takeBody at h
  split at h <;> cases h
  rfl

theorem eq_nil_of_ended (h : Leads p es q) (hp : p.phase.part = .ended) : es = [] := by
  have hm := move_of_ended hp
  cases h with
  | refl => rfl
  | next move later =>
    rw [hm] at move
    cases move
  | event move later =>
    rw [hm] at move
    cases move

theorem untilClose_of_leads (h : Leads p es q) (hp : p.phase = .untilClose) :
    q.phase = .untilClose := by
  refine h.invariant (fun p => p.phase = .untilClose) ?_ ?_ hp
  · intro p phase rest hp hm
    rw [move_untilClose p hp] at hm
    exact absurd hm takeBody_ne_next
  · intro p e phase rest hp hm
    rw [record_phase]
    exact untilClose_of_event hp hm

theorem events_of_body (h : Leads p es q) (hp : p.phase.part = .body)
    (hq : q.phase.part = .ended) :
    ∃ body trailers, es = body ++ [.complete trailers] ∧ ∀ e ∈ body, ∃ data, e = .chunk data := by
  induction h with
  | refl p =>
    rw [hp] at hq
    cases hq
  | next move later ih => exact ih (next_of_body hp move) hq
  | @event p q e phase rest es move later ih =>
    rcases event_of_body hp move with ⟨⟨data, rfl⟩, hphase⟩ | ⟨⟨trailers, rfl⟩, hphase⟩
    · obtain ⟨body, trailers, rfl, hbody⟩ := ih (by rwa [record_phase]) hq
      refine ⟨.chunk data :: body, trailers, rfl, fun e he => ?_⟩
      rcases List.mem_cons.1 he with rfl | he
      · exact ⟨data, rfl⟩
      · exact hbody e he
    · refine ⟨[], trailers, ?_, by simp⟩
      rw [eq_nil_of_ended later (by rwa [record_phase])]
      rfl

theorem events_of_message (h : Leads p es q) (hp : p.phase.part = .head)
    (hq : q.phase.part = .ended) :
    ∃ head bodiless body trailers, es = .head head bodiless :: (body ++ [.complete trailers]) ∧
      (∀ e ∈ body, ∃ data, e = .chunk data) ∧
      Framing.resolve head.fields (p.noBody head.start.status) ≠ .ok .untilClose := by
  induction h with
  | refl p =>
    rw [hp] at hq
    cases hq
  | next move later ih => exact ih (next_of_head hp move) hq
  | @event p q e phase rest es move later ih =>
    obtain ⟨head, bodiless, framing, rfl, hr, rfl⟩ := event_of_head hp move
    have hphase := part_bodyPhase framing
    obtain ⟨body, trailers, rfl, hbody⟩ := events_of_body later (by rwa [record_phase]) hq
    refine ⟨head, bodiless, body, trailers, rfl, hbody, fun hclose => ?_⟩
    rw [hr] at hclose
    cases hclose
    rw [untilClose_of_leads later rfl] at hq
    cases hq

end Parts

theorem leads_of_advance_some {p q : Parser} {e : Event} (h : p.advance = (.ok (some e), q)) :
    Leads p [e] q := by
  fun_induction advance p with
  | case1 => simp at h
  | case2 p phase rest hm ih => exact .next hm (ih h)
  | case3 p e phase rest hm =>
    cases h
    exact .event hm (.refl _)
  | case4 => simp at h

theorem leads_of_advance_none {p q : Parser} (h : p.advance = (.ok none, q)) :
    ∃ r, Leads p [] r ∧ r.move = .wait q.phase ∧ q = { r with phase := q.phase } := by
  fun_induction advance p with
  | case1 p phase hm =>
    cases h
    exact ⟨p, .refl p, hm, rfl⟩
  | case2 p phase rest hm ih =>
    obtain ⟨r, hr, hw, hq⟩ := ih h
    exact ⟨r, .next hm hr, hw, hq⟩
  | case3 => simp at h
  | case4 => simp at h

theorem events_of_feed {p q : Parser} {data : Bytes} {e : Option Event}
    (h : p.feed data = (.ok e, q)) (more : Bytes) :
    Run.Same (p.append (data ++ more)).events (Run.after e.toList (q.append more).events) := by
  unfold feed at h
  split at h
  · cases h
  · rw [← append_append]
    cases e with
    | some e => exact (leads_of_advance_some h).append more
    | none =>
      obtain ⟨r, hr, hw, hq⟩ := leads_of_advance_none h
      have := hr.append more
      rw [← events_of_waited hw more] at this
      rw [hq]
      exact this

theorem ended_of_complete {p : Parser} {trailers : Fields} {phase : Phase} {rest : Bytes}
    (h : p.move = .event (.complete trailers) phase rest) : phase.part = .ended := by
  cases hp : p.phase.part with
  | head =>
    obtain ⟨head, bodiless, framing, he, -⟩ := event_of_head hp h
    cases he
  | body =>
    rcases event_of_body hp h with ⟨⟨data, he⟩, -⟩ | ⟨-, hphase⟩
    · cases he
    · exact hphase
  | ended =>
    rw [move_of_ended hp] at h
    cases h
  | failed =>
    rw [move_of_failed hp] at h
    cases h

theorem ended_of_feed {p q : Parser} {data : Bytes} {trailers : Fields}
    (h : p.feed data = (.ok (some (.complete trailers)), q)) : q.phase.part = .ended := by
  unfold feed at h
  split at h
  · cases h
  · generalize { p with buffer := p.buffer ++ data } = r at h
    fun_induction advance r with
    | case1 => simp at h
    | case2 p phase rest hm ih => exact ih h
    | case3 p e phase rest hm =>
      cases h
      exact ended_of_complete hm
    | case4 => simp at h

theorem part_of_wait {p : Parser} {phase : Phase} (h : p.move = .wait phase) :
    phase.part = p.phase.part := by
  rcases move_wait_cases h with rfl | ⟨hp, rfl, -⟩
  · rfl
  · rw [hp]
    rfl

theorem part_of_next {p : Parser} {phase : Phase} {rest : Bytes} (h : p.move = .next phase rest) :
    phase.part = p.phase.part := by
  cases hp : p.phase.part with
  | head => exact next_of_head hp h
  | body => exact next_of_body hp h
  | ended =>
    rw [move_of_ended hp] at h
    cases h
  | failed =>
    rw [move_of_failed hp] at h
    cases h

theorem head_of_feed {p q : Parser} {data : Bytes} {e : Option Event} (hp : p.phase.part = .head)
    (h : p.feed data = (.ok e, q)) :
    e = none ∧ q.phase.part = .head ∨
      ∃ head bodiless, e = some (.head head bodiless) ∧ q.phase.part ≠ .head := by
  unfold feed at h
  split at h
  · cases h
  · generalize hr : ({ p with buffer := p.buffer ++ data } : Parser) = r at h
    have hp : r.phase.part = .head := hr ▸ hp
    clear hr
    fun_induction advance r with
    | case1 r phase hm =>
      cases h
      exact .inl ⟨rfl, (part_of_wait hm).trans hp⟩
    | case2 r phase rest hm ih => exact ih h ((part_of_next hm).trans hp)
    | case3 r e phase rest hm =>
      cases h
      obtain ⟨head, bodiless, framing, rfl, -, rfl⟩ := event_of_head hp hm
      refine .inr ⟨head, bodiless, rfl, ?_⟩
      simp [part_bodyPhase]
    | case4 => cases h

theorem body_of_feed {p q : Parser} {data : Bytes} {e : Option Event} (hp : p.phase.part ≠ .head)
    (h : p.feed data = (.ok e, q)) :
    q.phase.part ≠ .head ∧ ∀ head bodiless, e ≠ some (.head head bodiless) := by
  unfold feed at h
  split at h
  · cases h
  · generalize hr : ({ p with buffer := p.buffer ++ data } : Parser) = r at h
    have hp : r.phase.part ≠ .head := hr ▸ hp
    clear hr
    fun_induction advance r with
    | case1 r phase hm =>
      cases h
      exact ⟨part_of_wait hm ▸ hp, by simp⟩
    | case2 r phase rest hm ih => exact ih h (part_of_next hm ▸ hp)
    | case3 r e phase rest hm =>
      cases h
      rw [record_phase]
      cases hb : r.phase.part with
      | head => exact absurd hb hp
      | body =>
        rcases event_of_body hb hm with ⟨⟨data, rfl⟩, hphase⟩ | ⟨⟨trailers, rfl⟩, hphase⟩ <;>
          simp [hphase]
      | ended =>
        rw [move_of_ended hb] at hm
        cases hm
      | failed =>
        rw [move_of_failed hb] at hm
        cases hm
    | case4 => cases h

/-- Fed with these octets, piece by piece, and perhaps told that the stream has ended, the one
parser has become the other. -/
inductive Reads (p : Parser) : Bytes → Parser → Prop where
  | refl : Reads p [] p
  | feed {data more : Bytes} {e : Option Event} {q r : Parser} (reads : Reads p data q)
      (feed : q.feed more = (.ok e, r)) : Reads p (data ++ more) r
  | finish {data : Bytes} {q : Parser} (reads : Reads p data q) : Reads p data q.finish

def Fed (p : Parser) (data : Bytes) (es : List Event) (q : Parser) : Prop :=
  ∀ more, Run.Same (p.append (data ++ more)).events (Run.after es (q.append more).events)

namespace Fed

variable {p q r : Parser} {data more : Bytes} {es : List Event} {e : Option Event}

theorem refl (p : Parser) : p.Fed [] [] p := fun _ => .refl _

theorem feed (h : p.Fed data es q) (hf : q.feed more = (.ok e, r)) :
    p.Fed (data ++ more) (es ++ e.toList) r := by
  intro later
  have hq := (events_of_feed hf later).after es
  rw [Run.after_after] at hq
  rw [List.append_assoc]
  exact (h (more ++ later)).trans hq

/-- A parser that is at the end of a message, with nothing left over, was fed exactly one message,
and that did not end with the connection. -/
theorem message (hp : p.Settled) (hh : p.phase.part = .head) (h : p.Fed data es q)
    (hq : q.phase.part = .ended) :
    ∃ head bodiless body trailers,
      p.drain data = (.head head bodiless :: (body ++ [.complete trailers]), none, q) ∧
      (∀ e ∈ body, ∃ piece, e = .chunk piece) ∧
      Framing.resolve head.fields (p.noBody head.start.status) ≠ .ok .untilClose ∧
      es.flatMap Event.heads = [(head, bodiless)] := by
  have hend : q.events = ([], none, q) := by
    rw [events_of_wait (move_of_ended hq), ← Phase.eq_of_ended hq]
  have hsame := h []
  rw [List.append_nil, append_nil, hend] at hsame
  obtain ⟨ds, r, hl, hr⟩ := exists_leads_stop (p.append data)
  have hev := hl.events_eq
  rcases hr with ⟨phase, hr⟩ | ⟨error, hr⟩
  · rw [events_of_wait hr] at hev
    have hqr : ({ r with phase := phase } : Parser) = q := by
      have := hsame.2
      rw [hev] at this
      exact (Prod.mk.inj this).2
    have hphase : phase = .complete none := by
      rw [← Phase.eq_of_ended hq, ← hqr]
    have hended : r.phase.part = .ended := by
      rcases move_wait_cases hr with h' | ⟨-, h', -⟩
      · rw [← h', hphase]
        rfl
      · rw [hphase] at h'
        cases h'
    obtain ⟨head, bodiless, body, trailers, rfl, hbody, hframing⟩ :=
      events_of_message hl hh hended
    refine ⟨head, bodiless, body, trailers, ?_, hbody, hframing, ?_⟩
    · rw [hp.drain_eq, hev, hqr]
      simp [Run.after]
    · have hheads := hsame.heads
      rw [hev] at hheads
      have hnone : body.flatMap Event.heads = [] := by
        rw [List.flatMap_eq_nil_iff]
        intro e he
        obtain ⟨piece, rfl⟩ := hbody e he
        rfl
      simpa [Run.after, Event.heads, hnone] using hheads.symm
  · rw [events_of_fail hr] at hev
    have := hsame.2
    rw [hev] at this
    cases this

end Fed

end Parser
end HttpClient
