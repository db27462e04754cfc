import HttpClient.Proofs.Response.Messages
set_option autoImplicit false

/-!
A parser that is fed piece by piece, and perhaps told that the connection has ended, and all that it
reports on the way: the head, the chunks that the framing of that head allows, and the end of the
message. Only a body that lasts until the connection ends is ended by that; any other message is
whole within the octets that were fed.
-/

namespace HttpClient

def Phase.inChunks : Phase → Bool
  | .chunkSize | .chunkData _ | .chunkEnd | .lastChunk | .trailers .. | .complete (some _) => true
  | _ => false

/-- After so many octets of a body with this framing a parser is in such a phase. -/
def Framing.Leaves (framing : Framing) (total : Nat) (phase : Phase) : Prop :=
  match framing with
  | .empty => total = 0 ∧ phase = .complete (some .empty)
  | .length n => ∃ left, total + left = n ∧ phase = Parser.afterCounted left
  | .chunked => phase.inChunks = true
  | .untilClose => phase = .untilClose ∨ phase = .complete (some .empty)

def Framing.Filled (framing : Framing) (total : Nat) : Prop :=
  match framing with
  | .empty => total = 0
  | .length n => total = n
  | .chunked | .untilClose => True

namespace Parser

/-- Fed with these octets, in pieces, and perhaps told that the connection has ended, the one parser
has reported these events and become the other. -/
inductive Reports (p : Parser) : Bytes → List Event → Parser → Prop where
  | start : Reports p [] [] p
  | feed {data more : Bytes} {es : List Event} {e : Option Event} {q r : Parser}
      (reports : Reports p data es q) (feed : q.feed more = (.ok e, r)) :
      Reports p (data ++ more) (es ++ e.toList) r
  | finish {data : Bytes} {es : List Event} {q : Parser} (reports : Reports p data es q) :
      Reports p data es q.finish

def reported : Except ParseError (Option Event) → List Event
  | .ok e => e.toList
  | .error _ => []

/-- What a phase says about the events before it, where `expects` tells whether a body was awaited
behind a status. -/
inductive Account (expects : Nat → Bool → Prop) : List Event → Phase → Prop where
  | head {phase : Phase} (part : phase.part = .head) : Account expects [] phase
  | body {head : ResponseHead} {bodiless : Bool} {framing : Framing} {pieces : List Bytes}
      {phase : Phase} (expected : expects head.start.status bodiless)
      (framed : Framing.resolve head.fields bodiless = .ok framing)
      (filled : ∀ piece ∈ pieces, piece ≠ [])
      (leaves : framing.Leaves pieces.flatten.length phase) :
      Account expects (.head head (framing = .empty ∨ framing = .length 0) :: pieces.map .chunk)
        phase
  | ended {head : ResponseHead} {bodiless : Bool} {framing : Framing} {pieces : List Bytes}
      {trailers : Fields} (expected : expects head.start.status bodiless)
      (framed : Framing.resolve head.fields bodiless = .ok framing)
      (filled : ∀ piece ∈ pieces, piece ≠ [])
      (full : framing.Filled pieces.flatten.length) :
      Account expects (.head head (framing = .empty ∨ framing = .length 0) ::
        (pieces.map .chunk ++ [.complete trailers])) (.complete none)

section Accounts

variable {p q : Parser} {es : List Event} {e : Event} {phase : Phase} {rest : Bytes}
  {framing : Framing} {total : Nat}

theorem ne_nil_of_takeBody {left : Nat} {later : Nat → Phase} {wait : Phase} {data : Bytes}
    (h : p.takeBody left later wait = .event (.chunk data) phase rest) : data ≠ [] := by
  unfold takeBody at h
  split at h <;> cases h
  exact List.cons_ne_nil _ _

theorem ne_nil_of_chunk {data : Bytes} (h : p.move = .event (.chunk data) phase rest) :
    data ≠ [] := by
  cases hq : p.phase with
  | counted left => exact ne_nil_of_takeBody ((move_counted p left hq).symm.trans h)
  | chunkData left => exact ne_nil_of_takeBody ((move_chunkData p left hq).symm.trans h)
  | untilClose => exact ne_nil_of_takeBody ((move_untilClose p hq).symm.trans h)
  | complete trailers => cases trailers <;> simp [move, hq] at h
  | _ =>
    simp only [move, hq, moveStatusLine, moveFieldLines, endHead, moveChunkLine, moveChunkEnd,
      moveTrailers, headTooLarge] at h
    repeat' split at h
    all_goals cases h

theorem leaves_bodyPhase (framing : Framing) : framing.Leaves 0 (bodyPhase framing) := by
  cases framing with
  | empty => exact ⟨rfl, rfl⟩
  | length n => cases n <;> exact ⟨_, Nat.zero_add _, rfl⟩
  | chunked => rfl
  | untilClose => exact .inl rfl

theorem inChunks_of_next (hp : p.phase.inChunks = true) (h : p.move = .next phase rest) :
    phase.inChunks = true := by
  cases hq : p.phase with
  | chunkSize =>
    simp only [move, hq] at h
    obtain ⟨size, rfl⟩ := next_of_moveChunkLine h
    cases size <;> rfl
  | lastChunk =>
    simp only [move, hq] at h
    obtain ⟨size, rfl⟩ := next_of_moveChunkLine h
    rfl
  | chunkEnd =>
    simp only [move, hq, moveChunkEnd] at h
    repeat' split at h
    all_goals cases h
    rfl
  | trailers fields used =>
    simp only [move, hq, moveTrailers, headTooLarge] at h
    repeat' split at h
    all_goals cases h
    all_goals rfl
  | chunkData left => simp only [move, hq, takeBody_ne_next] at h
  | complete trailers => cases trailers <;> simp [move, hq] at h
  | _ => simp [hq, Phase.inChunks] at hp

theorem ne_next_of_leaves (unchunked : framing ≠ .chunked) (hl : framing.Leaves total p.phase) :
    p.move ≠ .next phase rest := by
  cases framing with
  | empty => simp [move, hl.2]
  | length n =>
    obtain ⟨left, -, hp⟩ := hl
    cases left with
    | zero => simp [move, hp, afterCounted]
    | succ left =>
      rw [move_counted p _ hp]
      exact takeBody_ne_next
  | chunked => exact absurd rfl unchunked
  | untilClose =>
    rcases hl with hp | hp
    · rw [move_untilClose p hp]
      exact takeBody_ne_next
    · simp [move, hp]

theorem leaves_of_next (hl : framing.Leaves total p.phase) (h : p.move = .next phase rest) :
    framing.Leaves total phase := by
  by_cases hf : framing = .chunked
  · subst hf
    exact inChunks_of_next hl h
  · exact absurd h (ne_next_of_leaves hf hl)

theorem inChunks_of_event (hp : p.phase.inChunks = true) (h : p.move = .event e phase rest) :
    (∃ data, e = .chunk data ∧ phase.inChunks = true) ∨
      (∃ trailers, e = .complete trailers) ∧ phase = .complete none := by
  cases hq : p.phase with
  | chunkData left =>
    rw [move_chunkData p left hq] at h
    unfold takeBody at h
    split at h
    · cases h
    · cases h
      refine .inl ⟨_, rfl, ?_⟩
      cases left - p.buffer.length <;> rfl
  | complete trailers =>
    cases trailers <;> simp only [move, hq] at h <;> cases h
    exact .inr ⟨⟨_, rfl⟩, rfl⟩
  | chunkSize => simp only [move, hq, moveChunkLine_ne_event] at h
  | lastChunk => simp only [move, hq, moveChunkLine_ne_event] at h
  | chunkEnd =>
    simp only [move, hq, moveChunkEnd] at h
    repeat' split at h
    all_goals cases h
  | trailers fields used =>
    simp only [move, hq, moveTrailers, headTooLarge] at h
    repeat' split at h
    all_goals cases h
  | _ => simp [hq, Phase.inChunks] at hp

theorem leaves_of_event (hl : framing.Leaves total p.phase) (h : p.move = .event e phase rest) :
    (∃ data, e = .chunk data ∧ framing.Leaves (total + data.length) phase) ∨
      (∃ trailers, e = .complete trailers) ∧ phase = .complete none ∧ framing.Filled total := by
  cases framing with
  | empty =>
    simp only [move, hl.2] at h
    cases h
    exact .inr ⟨⟨_, rfl⟩, rfl, hl.1⟩
  | length n =>
    obtain ⟨left, hn, hp⟩ := hl
    cases left with
    | zero =>
      simp only [move, hp, afterCounted] at h
      cases h
      exact .inr ⟨⟨_, rfl⟩, rfl, hn⟩
    | succ left =>
      rw [move_counted p _ hp] at h
      unfold takeBody at h
      split at h
      · cases h
      · next b data htake =>
        cases h
        have hlen := congrArg List.length htake
        rw [List.length_take] at hlen
        exact .inl ⟨_, rfl, _, by omega, rfl⟩
  | chunked =>
    rcases inChunks_of_event hl h with hchunk | ⟨he, hphase⟩
    · exact .inl hchunk
    · exact .inr ⟨he, hphase, trivial⟩
  | untilClose =>
    rcases hl with hp | hp
    · rw [move_untilClose p hp] at h
      unfold takeBody at h
      split at h <;> cases h
      exact .inl ⟨_, rfl, .inl rfl⟩
    · simp only [move, hp] at h
      cases h
      exact .inr ⟨⟨_, rfl⟩, rfl, trivial⟩

theorem leaves_of_wait (hl : framing.Leaves total p.phase) (h : p.move = .wait phase) :
    framing.Leaves total phase := by
  rcases move_wait_cases h with rfl | ⟨hp, rfl, -⟩
  · exact hl
  · cases framing with
    | empty => simp [hp, Framing.Leaves] at hl
    | length n =>
      obtain ⟨left, -, hleft⟩ := hl
      cases left <;> simp [hp, afterCounted] at hleft
    | chunked => rfl
    | untilClose => rcases hl with hl | hl <;> simp [hp] at hl

theorem eq_untilClose_of_leaves (hl : framing.Leaves total .untilClose) :
    framing = .untilClose := by
  cases framing with
  | empty => simp [Framing.Leaves] at hl
  | length n =>
    obtain ⟨left, -, hleft⟩ := hl
    cases left <;> simp [afterCounted] at hleft
  | chunked => cases hl
  | untilClose => rfl

theorem leaves_finish (hl : framing.Leaves total p.phase) :
    framing.Leaves total p.finish.phase := by
  unfold finish
  split
  · next h =>
    rw [h.1] at hl
    rw [eq_untilClose_of_leaves hl]
    exact .inr rfl
  · exact hl

theorem part_of_leaves (hl : framing.Leaves total phase) : phase.part = .body := by
  cases framing with
  | empty =>
    rw [hl.2]
    rfl
  | length n =>
    obtain ⟨left, -, rfl⟩ := hl
    cases left <;> rfl
  | chunked =>
    cases phase with
    | complete trailers => cases trailers <;> first | rfl | cases hl
    | _ => first | rfl | cases hl
  | untilClose => rcases hl with rfl | rfl <;> rfl

variable {expects : Nat → Bool → Prop}

theorem Account.next (ha : Account expects es p.phase) (h : p.move = .next phase rest) :
    Account expects es phase := by
  generalize hq : p.phase = before at ha
  cases ha with
  | head part => exact .head (next_of_head (hq ▸ part) h)
  | body expected framed filled leaves =>
    exact .body expected framed filled (leaves_of_next (hq ▸ leaves) h)
  | ended expected framed filled full => simp [move, hq] at h

theorem Account.wait (ha : Account expects es p.phase) (h : p.move = .wait phase) :
    Account expects es phase := by
  generalize hq : p.phase = before at ha
  cases ha with
  | head part => exact .head ((part_of_wait h).trans (hq ▸ part))
  | body expected framed filled leaves =>
    exact .body expected framed filled (leaves_of_wait (hq ▸ leaves) h)
  | ended expected framed filled full =>
    simp only [move, hq] at h
    cases h
    exact .ended expected framed filled full

theorem Account.event (ha : Account expects es p.phase)
    (hx : ∀ status, expects status (p.noBody status)) (h : p.move = .event e phase rest) :
    Account expects (es ++ [e]) phase := by
  generalize hq : p.phase = before at ha
  cases ha with
  | head part =>
    obtain ⟨head, framing, rfl, framed, rfl⟩ := framed_of_head (hq ▸ part) h
    exact @Account.body expects head _ framing [] _ (hx _) framed (by simp)
      (leaves_bodyPhase framing)
  | @body head bodiless framing pieces _ expected framed filled leaves =>
    rcases leaves_of_event (hq ▸ leaves) h with ⟨data, rfl, hl⟩ | ⟨⟨trailers, rfl⟩, rfl, full⟩
    · have hdata := ne_nil_of_chunk h
      have hl : framing.Leaves (pieces ++ [data]).flatten.length phase := by simpa using hl
      have hall : ∀ piece ∈ pieces ++ [data], piece ≠ [] := by
        intro piece hm
        rcases List.mem_append.1 hm with hm | hm
        · exact filled piece hm
        · rwa [List.mem_singleton.1 hm]
      simpa using @Account.body expects head bodiless framing _ _ expected framed hall hl
    · exact .ended expected framed filled full
  | ended expected framed filled full => simp [move, hq] at h

theorem Account.finish (ha : Account expects es p.phase) : Account expects es p.finish.phase := by
  generalize hq : p.phase = before at ha
  have hsame (hp : p.phase ≠ .untilClose) : p.finish.phase = p.phase := by simp [Parser.finish, hp]
  cases ha with
  | head part =>
    rw [hsame (by rintro h; simp [← hq, h, Phase.part] at part), hq]
    exact .head part
  | body expected framed filled leaves =>
    exact .body expected framed filled (leaves_finish (hq ▸ leaves))
  | ended expected framed filled full =>
    rw [hsame (by simp [hq]), hq]
    exact .ended expected framed filled full

theorem account_of_advance {answer : Except ParseError (Option Event)}
    (h : p.advance = (answer, q)) (ha : Account expects es p.phase)
    (hx : ∀ status, expects status (p.noBody status)) :
    (∃ e, answer = .ok e ∧ Account expects (es ++ e.toList) q.phase) ∨
      (∃ error, answer = .error error) ∧ q.phase = .failed ∧
        ∃ phase, phase.part ≠ .ended ∧ Account expects es phase := by
  fun_induction advance p with
  | case1 p phase hm =>
    cases h
    exact .inl ⟨none, rfl, by simpa using ha.wait hm⟩
  | case2 p phase rest hm ih => exact ih h (ha.next hm) hx
  | case3 p e phase rest hm =>
    cases h
    refine .inl ⟨some e, rfl, ?_⟩
    rw [record_phase]
    exact ha.event hx hm
  | case4 p error hm =>
    cases h
    refine .inr ⟨⟨error, rfl⟩, rfl, p.phase, fun hended => ?_, ha⟩
    rw [move_of_ended hended] at hm
    cases hm

theorem noBody_of_advance {answer : Except ParseError (Option Event)}
    (h : p.advance = (answer, q)) : q.noBody = p.noBody := by
  fun_induction advance p with
  | case1 =>
    cases h
    rfl
  | case2 p phase rest hm ih => exact ih h
  | case3 p e phase rest hm =>
    cases h
    cases e <;> rfl
  | case4 =>
    cases h
    rfl

theorem noBody_finish (p : Parser) : p.finish.noBody = p.noBody := by
  unfold finish
  split <;> rfl

end Accounts

namespace Reports

variable {p q r : Parser} {data : Bytes} {es : List Event}

theorem account (h : p.Reports data es q) (hp : p.phase.part = .head) :
    Account (p.noBody · = ·) es q.phase ∧ q.noBody = p.noBody := by
  induction h with
  | start => exact ⟨.head hp, rfl⟩
  | @feed data more es e q r reports feed ih =>
    unfold Parser.feed at feed
    split at feed
    · cases feed
    · refine ⟨?_, (noBody_of_advance feed).trans ih.2⟩
      have hx (status : Nat) : p.noBody status = q.noBody status := by rw [ih.2]
      rcases account_of_advance feed ih.1 hx with ⟨e', he, ha⟩ | ⟨⟨error, he⟩, -⟩
      · cases he
        exact ha
      · cases he
  | finish reports ih => exact ⟨ih.1.finish, (noBody_finish _).trans ih.2⟩

theorem eq_nil_of_head (h : p.Reports data es q) (hp : p.phase.part = .head)
    (hq : q.phase.part = .head) : es = [] := by
  have ha := (h.account hp).1
  generalize q.phase = phase at ha hq
  cases ha with
  | head part => rfl
  | body expected framed filled leaves => simp [part_of_leaves leaves] at hq
  | ended expected framed filled full => cases hq

/-- The end of the connection has mattered only if the body was to last until then. -/
theorem fed (h : p.Reports data es q) (hp : p.phase.part = .head) :
    p.Fed data es q ∨ ∃ head bodiless later, es = .head head bodiless :: later ∧
      Framing.resolve head.fields (p.noBody head.start.status) = .ok .untilClose := by
  induction h with
  | start => exact .inl (.refl p)
  | feed reports feed ih =>
    rcases ih with ih | ⟨head, bodiless, later, rfl, framed⟩
    · exact .inl (ih.feed feed)
    · exact .inr ⟨head, bodiless, _, rfl, framed⟩
  | @finish data es q reports ih =>
    rcases ih with ih | ih
    · by_cases hq : q.phase = .untilClose
      · have ha := (reports.account hp).1
        rw [hq] at ha
        cases ha with
        | head part => cases part
        | body expected framed filled leaves =>
          subst expected
          exact .inr ⟨_, _, _, rfl, eq_untilClose_of_leaves leaves ▸ framed⟩
      · rw [show q.finish = q by simp [Parser.finish, hq]]
        exact .inl ih
    · exact .inr ih

/-- At the end of a message a parser has reported its head, as many octets as that announced, and
its end. Without the end of the connection the octets fed so far are read as the same message,
unless the body was to last until then. -/
theorem whole (h : p.Reports data es q) (hs : p.Settled) (hp : p.phase.part = .head)
    (hq : q.phase.part = .ended) :
    ∃ (head : ResponseHead) (bodiless : Bool) (framing : Framing) (pieces : List Bytes)
      (trailers : Fields), es = .head head bodiless :: (pieces.map .chunk ++ [.complete trailers]) ∧
      Framing.resolve head.fields (p.noBody head.start.status) = .ok framing ∧
      framing.Filled pieces.flatten.length ∧
      (framing ≠ .untilClose → Run.Same (p.drain data) (es, none, q)) := by
  have ha := (h.account hp).1
  generalize hphase : q.phase = phase at ha
  cases ha with
  | head part => simp [hphase, part] at hq
  | body expected framed filled leaves => simp [hphase, part_of_leaves leaves] at hq
  | @ended head bodiless framing pieces trailers expected framed filled full =>
    subst expected
    refine ⟨head, _, framing, pieces, trailers, rfl, framed, full, fun hclose => ?_⟩
    rcases h.fed hp with hfed | ⟨head', bodiless', later, he, hframed⟩
    · have hend : q.events = ([], none, q) := by
        rw [events_of_wait (move_of_ended hq), ← Phase.eq_of_ended hq]
      have hsame := hfed []
      rw [List.append_nil, append_nil, hend] at hsame
      rw [hs.drain_eq]
      simpa only [Run.after, List.append_nil] using hsame
    · cases he
      rw [framed] at hframed
      cases hframed
      exact absurd rfl hclose

theorem drain {more : Bytes} {ds : List Event} (h : p.Reports data es q)
    (hd : q.drain more = (ds, none, r)) : p.Reports (data ++ more) (es ++ ds) r := by
  induction hn : (q.append more).pending using Nat.strongRecOn
    generalizing q data es more ds with
  | ind n ih =>
    have hq : q.phase ≠ .failed := fun hq => by simp [Parser.drain, hq] at hd
    rw [drain_eq_feed hq] at hd
    rcases hf : q.feed more with ⟨error | (_ | e), s⟩ <;> rw [hf] at hd
    · cases hd
    · cases hd
      exact .feed h hf
    · have hd : Run.after [e] (s.drain []) = (ds, none, r) := hd
      have hlt : (s.append []).pending < n := by
        rw [append_nil, ← hn]
        rw [Parser.feed, if_neg hq] at hf
        exact pending_of_advance hf
      rcases hs : s.drain [] with ⟨later, error, t⟩
      rw [hs] at hd
      cases hd
      simpa using ih _ hlt (.feed h hf) hs rfl

theorem of_drain (hd : p.drain data = (es, none, q)) : p.Reports data es q := by
  simpa using Reports.start.drain hd

end Reports

end Parser
end HttpClient
