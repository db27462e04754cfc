import HttpClient.Proofs.Response.Calls
set_option autoImplicit false

/-!
The bound on bodies. At any time a parser tells whether the body is known to be over it: by the
length that its head announces, or by the octets that were handed out. Where the octets were cut
does not matter, nor how the body ends.
-/

namespace HttpClient

namespace Event

def announced : Event → Option Nat
  | .head start false =>
    match Framing.resolve start.fields false with
    | .ok (.length n) => some n
    | _ => none
  | _ => none

/-- A head among these events announces a body of more than `bound` octets. -/
def Announces (bound : Nat) (es : List Event) : Prop :=
  ∃ e ∈ es, ∃ n, e.announced = some n ∧ bound < n

/-- After these events a body is known to have more than `bound` octets. -/
def Exceeds (bound : Nat) (es : List Event) : Prop :=
  Announces bound es ∨ bound < (es.flatMap octets).length

/-- A piece of the body came when it was known to have more than `bound` octets, that piece
included. -/
def Overrun (bound : Nat) (es : List Event) : Prop :=
  ∃ before piece after, es = before ++ .chunk piece :: after ∧
    Exceeds bound (before ++ [.chunk piece])

section Bounds

variable {bound : Nat} {es later : List Event} {e : Event}

theorem overrun_concat :
    Overrun bound (es ++ [e]) ↔
      Overrun bound es ∨ ∃ piece, e = .chunk piece ∧ Exceeds bound (es ++ [e]) := by
  constructor
  · rintro ⟨before, piece, after, hes, hex⟩
    cases after using List.reverseRecOn with
    | nil =>
      obtain ⟨rfl, he⟩ := List.append_inj' hes rfl
      cases he
      exact .inr ⟨piece, rfl, hex⟩
    | append_singleton after last ih =>
      rw [← List.cons_append, ← List.append_assoc] at hes
      obtain ⟨rfl, -⟩ := List.append_inj' hes rfl
      exact .inl ⟨before, piece, after, rfl, hex⟩
  · rintro (⟨before, piece, after, rfl, hex⟩ | ⟨piece, rfl, hex⟩)
    · exact ⟨before, piece, after ++ [e], by simp, hex⟩
    · exact ⟨es, piece, [], rfl, hex⟩

theorem overrun_concat_chunk {piece : Bytes} :
    Overrun bound (es ++ [.chunk piece]) ↔
      Overrun bound es ∨ Exceeds bound (es ++ [.chunk piece]) := by
  rw [overrun_concat]
  simp

theorem Exceeds.append (h : Exceeds bound es) (later : List Event) :
    Exceeds bound (es ++ later) := by
  rcases h with ⟨e, he, announces⟩ | hlt
  · exact .inl ⟨e, List.mem_append_left later he, announces⟩
  · refine .inr ?_
    rw [List.flatMap_append, List.length_append]
    omega

theorem Overrun.exceeds (h : Overrun bound es) : Exceeds bound es := by
  obtain ⟨before, piece, after, rfl, hex⟩ := h
  simpa using hex.append after

theorem overrun_append_of_silent (silent : ∀ piece, .chunk piece ∉ later) :
    Overrun bound (es ++ later) ↔ Overrun bound es := by
  induction later using List.reverseRecOn with
  | nil => rw [List.append_nil]
  | append_singleton later last ih =>
    rw [← List.append_assoc, overrun_concat, ih fun piece hp => silent piece (by simp [hp])]
    refine or_iff_left ?_
    rintro ⟨piece, rfl, -⟩
    exact silent piece (by simp)

theorem length_le_of_not_overrun (h : ¬ Overrun bound es) :
    (es.flatMap octets).length ≤ bound := by
  induction es using List.reverseRecOn with
  | nil => exact Nat.zero_le _
  | append_singleton es last ih =>
    rw [overrun_concat, not_or] at h
    cases last with
    | chunk piece =>
      by_contra hlt
      exact h.2 ⟨piece, rfl, .inr (by omega)⟩
    | head head bodiless => simpa [octets] using ih h.1
    | complete trailers => simpa [octets] using ih h.1

theorem exceeds_concat_of_silent (ha : e.announced = none) (ho : e.octets = []) :
    Exceeds bound (es ++ [e]) ↔ Exceeds bound es := by
  simp [Exceeds, Announces, ha, ho, or_and_right, exists_or]

theorem exceeds_concat_chunk {piece : Bytes} :
    Exceeds bound (es ++ [.chunk piece]) ↔
      Exceeds bound es ∨ bound < (es.flatMap octets).length + piece.length := by
  have hnone : announced (.chunk piece) = none := rfl
  simp only [Exceeds, Announces, List.mem_append, List.mem_singleton, or_and_right, exists_or,
    exists_eq_left, hnone, reduceCtorEq, false_and, exists_false, or_false, List.flatMap_append,
    List.flatMap_singleton, List.length_append, octets]
  constructor
  · rintro (h | h)
    · exact .inl (.inl h)
    · exact .inr h
  · rintro ((h | h) | h)
    · exact .inl h
    · exact .inr (by omega)
    · exact .inr h

theorem exceeds_concat_head {head : ResponseHead} {bodiless : Bool} :
    Exceeds bound (es ++ [.head head bodiless]) ↔
      Exceeds bound es ∨ ∃ n, announced (.head head bodiless) = some n ∧ bound < n := by
  simp only [Exceeds, Announces, List.mem_append, List.mem_singleton, or_and_right, exists_or,
    exists_eq_left, List.flatMap_append, List.flatMap_singleton, octets, List.append_nil]
  rw [or_right_comm]

end Bounds

end Event

namespace Parser

/-- What a parser tells of the body fits the events that it has reported. -/
structure Weighed (p : Parser) (es : List Event) : Prop where
  bodyBytes : p.bodyBytes = (es.flatMap Event.octets).length
  overLimit : p.overLimit = true ↔
    p.limits.bodyBytes ≠ 0 ∧ Event.Exceeds p.limits.bodyBytes es

section Weighed

variable {p q : Parser} {es : List Event} {e : Event} {phase : Phase} {rest : Bytes}

theorem bodyTooLarge_iff (l : Limits) (n : Nat) :
    l.bodyTooLarge n = true ↔ l.bodyBytes ≠ 0 ∧ l.bodyBytes < n := by
  simp [Limits.bodyTooLarge]

theorem weighed_new (method : String) (limits : Limits) : (forMethod method limits).Weighed [] := by
  refine ⟨rfl, ?_⟩
  simp [forMethod, new, Event.Exceeds, Event.Announces]

theorem Weighed.same (h : p.Weighed es) (bodyBytes : q.bodyBytes = p.bodyBytes)
    (overLimit : q.overLimit = p.overLimit) (limits : q.limits = p.limits) : q.Weighed es := by
  refine ⟨bodyBytes.trans h.bodyBytes, ?_⟩
  rw [overLimit, limits]
  exact h.overLimit

theorem announced_head {head : ResponseHead} {expected : Bool} {framing : Framing}
    (hr : Framing.resolve head.fields expected = .ok framing) (n : Nat) :
    Event.announced (.head head (decide (framing = .empty ∨ framing = .length 0))) = some n ↔
      bodyPhase framing = .counted n := by
  by_cases hb : framing = .empty ∨ framing = .length 0
  · rw [decide_eq_true hb]
    rcases hb with rfl | rfl <;> simp [Event.announced, bodyPhase]
  -- a body follows, so one was expected
  · have hexpected : expected = false := by
      by_contra he
      rw [Bool.not_eq_false] at he
      exact hb (.inl (Framing.empty_of_bodiless (he ▸ hr)))
    rw [hexpected] at hr
    rw [decide_eq_false hb]
    simp only [Event.announced, hr]
    cases framing with
    | length m => cases m <;> simp_all [bodyPhase]
    | empty => simp at hb
    | chunked => simp [bodyPhase]
    | untilClose => simp [bodyPhase]

theorem limits_record (p : Parser) (e : Event) (phase : Phase) (rest : Bytes) :
    (p.record e phase rest).limits = p.limits := by
  cases e <;> rfl

theorem weighed_head {head : ResponseHead} {bodiless : Bool} (h : p.Weighed es)
    (ha : ∀ n, Event.announced (.head head bodiless) = some n ↔ phase = .counted n)
    (rest : Bytes) :
    (p.record (.head head bodiless) phase rest).Weighed (es ++ [.head head bodiless]) where
  bodyBytes := by simpa [record, Event.octets] using h.bodyBytes
  overLimit := by
    rw [limits_record, Event.exceeds_concat_head, and_or_left, ← h.overLimit]
    simp only [record, Bool.or_eq_true, ha]
    cases phase <;> simp [bodyTooLarge_iff]

theorem weighed_chunk {piece : Bytes} (h : p.Weighed es) (phase : Phase) (rest : Bytes) :
    (p.record (.chunk piece) phase rest).Weighed (es ++ [.chunk piece]) where
  bodyBytes := by simp [record, Event.octets, h.bodyBytes]
  overLimit := by
    rw [limits_record, Event.exceeds_concat_chunk, and_or_left, ← h.overLimit, ← h.bodyBytes]
    simp [record, bodyTooLarge_iff]

theorem weighed_complete {trailers : Fields} (h : p.Weighed es) (phase : Phase) (rest : Bytes) :
    (p.record (.complete trailers) phase rest).Weighed (es ++ [.complete trailers]) where
  bodyBytes := by simpa [record, Event.octets] using h.bodyBytes
  overLimit := by
    rw [Event.exceeds_concat_of_silent rfl rfl]
    exact h.overLimit

theorem Weighed.event (h : p.Weighed es) (hm : p.move = .event e phase rest) :
    (p.record e phase rest).Weighed (es ++ [e]) := by
  cases e with
  | head head bodiless =>
    have hp : p.phase.part = .head := by
      cases hpart : p.phase.part with
      | head => rfl
      | body =>
        rcases event_of_body hpart hm with ⟨⟨data, he⟩, -⟩ | ⟨⟨trailers, he⟩, -⟩ <;> cases he
      | ended => rw [move_of_ended hpart] at hm; cases hm
      | failed => rw [move_of_failed hpart] at hm; cases hm
    obtain ⟨head, framing, he, hr, rfl⟩ := framed_of_head hp hm
    cases he
    exact weighed_head h (announced_head hr) rest
  | chunk piece => exact weighed_chunk h phase rest
  | complete trailers => exact weighed_complete h phase rest

theorem weighed_of_advance {answer : Except ParseError (Option Event)}
    (h : p.advance = (answer, q)) (hw : p.Weighed es) :
    q.limits = p.limits ∧ q.Weighed (es ++ reported answer) := by
  fun_induction advance p with
  | case1 p phase hm =>
    cases h
    rw [reported, Option.toList_none, List.append_nil]
    exact ⟨rfl, hw.same rfl rfl rfl⟩
  | case2 p phase rest hm ih => exact ih h (hw.same rfl rfl rfl)
  | case3 p e phase rest hm =>
    cases h
    exact ⟨limits_record p e phase rest, hw.event hm⟩
  | case4 p error hm =>
    cases h
    rw [reported, List.append_nil]
    exact ⟨rfl, hw.same rfl rfl rfl⟩

theorem weighed_of_feed {data : Bytes} {answer : Except ParseError (Option Event)}
    (h : p.feed data = (answer, q)) (hw : p.Weighed es) :
    q.limits = p.limits ∧ q.Weighed (es ++ reported answer) := by
  unfold feed at h
  split at h
  · cases h
    exact ⟨rfl, by simpa [reported] using hw⟩
  · have hw : Weighed { p with buffer := p.buffer ++ data } es := hw.same rfl rfl rfl
    obtain ⟨hlimits, hfed⟩ := weighed_of_advance h hw
    exact ⟨hlimits, hfed⟩

theorem weighed_finish (hw : p.Weighed es) : p.finish.limits = p.limits ∧ p.finish.Weighed es := by
  unfold finish
  split
  · exact ⟨rfl, hw.same rfl rfl rfl⟩
  · exact ⟨rfl, hw⟩

theorem Reports.weighed {data : Bytes} (h : p.Reports data es q) (hw : p.Weighed []) :
    q.limits = p.limits ∧ q.Weighed es := by
  induction h with
  | start => exact ⟨rfl, hw⟩
  | feed reports feed ih =>
    obtain ⟨hlimits, hfed⟩ := weighed_of_feed feed ih.2
    exact ⟨hlimits.trans ih.1, hfed⟩
  | finish reports ih =>
    obtain ⟨hlimits, hfinished⟩ := weighed_finish ih.2
    exact ⟨hlimits.trans ih.1, hfinished⟩

theorem Account.announces {bound : Nat} {expects : Nat → Bool → Prop} {before after : List Event}
    (h : Account expects (before ++ after) phase)
    (announces : Event.Announces bound (before ++ after)) (hb : before ≠ []) :
    Event.Announces bound before := by
  obtain ⟨e, he, n, hn, hlt⟩ := announces
  -- nothing but the first event can announce anything
  have hfirst : (before ++ after).head? = some e := by
    have hrest (pieces : List Bytes) (he : e ∈ pieces.map Event.chunk) : e.announced = none := by
      obtain ⟨piece, -, rfl⟩ := List.mem_map.1 he
      rfl
    generalize before ++ after = es at h he
    cases h with
    | head => cases he
    | body expected framed filled leaves =>
      rcases List.mem_cons.1 he with rfl | he
      · rfl
      · simp [hrest _ he] at hn
    | ended expected framed filled full =>
      rcases List.mem_cons.1 he with rfl | he
      · rfl
      · rcases List.mem_append.1 he with he | he
        · simp [hrest _ he] at hn
        · simp [List.mem_singleton.1 he, Event.announced] at hn
  cases before with
  | nil => exact absurd rfl hb
  | cons first rest =>
    cases hfirst
    exact ⟨_, List.mem_cons_self, n, hn, hlt⟩

theorem Account.octets_of_announces {bound : Nat} {expects : Nat → Bool → Prop}
    {before after : List Event} (h : Account expects (before ++ after) phase)
    (announces : Event.Announces bound (before ++ after)) (hb : ¬ Event.Overrun bound before) :
    before.flatMap Event.octets = [] := by
  rw [List.flatMap_eq_nil_iff]
  intro e he
  cases e with
  | head head bodiless => rfl
  | complete trailers => rfl
  | chunk piece =>
    exfalso
    obtain ⟨first, last, rfl⟩ := List.append_of_mem he
    have hsplit : first ++ .chunk piece :: last ++ after =
        (first ++ [.chunk piece]) ++ (last ++ after) := by simp
    rw [hsplit] at h announces
    exact hb ⟨first, piece, last, rfl, .inl (h.announces announces (by simp))⟩

end Weighed

/-- However a parser is called, it is known to be over its bound exactly when the events say so. -/
theorem Session.weighed_ofCalls (p : Parser) (hp : p.Weighed []) (calls : List Call) :
    (ofCalls p calls).parser.limits = p.limits ∧
      (ofCalls p calls).parser.Weighed (ofCalls p calls).events := by
  induction calls using List.reverseRecOn with
  | nil => exact ⟨rfl, hp⟩
  | append_singleton calls c ih =>
    rw [ofCalls_concat]
    obtain ⟨hlimits, hw⟩ := ih
    cases c with
    | feed data =>
      obtain ⟨hfed, hwfed⟩ := weighed_of_feed (rfl : (ofCalls p calls).parser.feed data = _) hw
      rw [events_feed]
      exact ⟨hfed.trans hlimits, hwfed⟩
    | finish =>
      obtain ⟨hfin, hwfin⟩ := weighed_finish hw
      exact ⟨hfin.trans hlimits, hwfin⟩
    | expectNoBody flag => exact ⟨hlimits, hw.same rfl rfl rfl⟩

end Parser
end HttpClient
