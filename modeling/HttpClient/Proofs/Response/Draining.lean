import HttpClient.Proofs.Response.Messages
set_option autoImplicit false

/-!
Reading comes to an end. The loops of a call are run here with their passes counted. A pass after
which a loop goes on has consumed octets, so a call takes at most one pass more than there are
octets in the buffer; and as every event but the last one takes octets away, draining takes few
calls.
-/

namespace HttpClient

def ParserState.isChunked : ParserState → Bool
  | .bodyChunked | .chunkedTrailer => true
  | _ => false

namespace Parser

abbrev Reply := Except ParseError (Option Event) × Parser

/-- What one pass of a loop comes to. -/
inductive Pass (α : Type) where
  | again (p : Parser)
  | leave (result : α)

/-- The passes of a loop, up to a number of them; there is no result if that is not enough. -/
def Pass.within {α : Type} (pass : Parser → Pass α) : Nat → Parser → Option α
  | 0, _ => none
  | passes + 1, p => match pass p with
    | .again q => within pass passes q
    | .leave result => some result

/-- A pass over the lines of a head or over a chunked body. At the end of a message its loop is left
without an event. -/
def innerPass (p : Parser) : Pass Reply :=
  match p.move with
  | .wait phase => .leave (.ok none, { p with phase := phase })
  | .next phase rest =>
    if phase.state = .complete then .leave (.ok none, { p with phase := phase, buffer := rest })
    else .again { p with phase := phase, buffer := rest }
  | .event event phase rest => .leave (.ok (some event), p.record event phase rest)
  | .fail error => .leave (.error error, { p with phase := .failed, buffer := [] })

/-- A pass of the loop around those: a chunked body that has come to its end is looked at again. -/
def outerPass (passes : Nat) (p : Parser) : Pass (Option Reply) :=
  if p.state.isChunked then
    match Pass.within innerPass passes p with
    | some (.ok none, q) => if q.state = .complete then .again q else .leave (some (.ok none, q))
    | reply => .leave reply
  else .leave (Pass.within innerPass passes p)

/-- A call whose outer loop may make two passes and whose inner loops may make so many. -/
def feedWithin (passes : Nat) (p : Parser) (data : Bytes) : Option Reply :=
  if p.phase = .failed then some (.error .stopped, p)
  else (Pass.within (outerPass passes) 2 { p with buffer := p.buffer ++ data }).join

section Passes

variable {p q : Parser} {phase : Phase} {rest : Bytes} {passes : Nat}

theorem next_of_innerPass (h : innerPass p = .again q) :
    ∃ phase rest, p.move = .next phase rest ∧ phase.state ≠ .complete ∧
      q = { p with phase := phase, buffer := rest } := by
  unfold innerPass at h
  split at h
  · cases h
  next phase rest hm =>
    split at h
    · cases h
    next going =>
      cases h
      exact ⟨phase, rest, hm, going, rfl⟩
  · cases h
  · cases h

theorem length_of_innerPass (h : innerPass p = .again q) : q.buffer.length < p.buffer.length := by
  obtain ⟨phase, rest, hm, -, rfl⟩ := next_of_innerPass h
  exact length_of_move_next hm

theorem exists_within {α : Type} {pass : Parser → Pass α}
    (progress : ∀ p q, pass p = .again q → q.buffer.length < p.buffer.length)
    (enough : p.buffer.length < passes) : ∃ result, Pass.within pass passes p = some result := by
  induction passes generalizing p with
  | zero => omega
  | succ passes ih =>
    cases hp : pass p with
    | leave result => exact ⟨result, by simp [Pass.within, hp]⟩
    | again q =>
      have hlt := progress p q hp
      obtain ⟨result, hq⟩ := ih (p := q) (by omega)
      exact ⟨result, by simp [Pass.within, hp, hq]⟩

theorem state_of_head (h : phase.part = .head) : phase.state = .awaitingHeaders := by
  cases phase with
  | statusLine => rfl
  | fieldLines start fields used => rfl
  | complete trailers => cases trailers <;> cases h
  | _ => cases h

theorem isChunked_of_next (h : p.move = .next phase rest)
    (hphase : phase.state ≠ .awaitingHeaders) : p.state.isChunked = true := by
  cases hq : p.phase with
  | statusLine => exact absurd (state_of_head (next_of_head (by rw [hq]; rfl) h)) hphase
  | fieldLines start fields used =>
    exact absurd (state_of_head (next_of_head (by rw [hq]; rfl) h)) hphase
  | counted left =>
    rw [move_counted p left hq] at h
    exact absurd h takeBody_ne_next
  | untilClose =>
    rw [move_untilClose p hq] at h
    exact absurd h takeBody_ne_next
  | complete trailers => cases trailers <;> simp [move, hq] at h
  | failed => simp [move, hq] at h
  | _ =>
    rw [state, hq]
    rfl

/-- How an inner loop comes to its end: with the answer of the call, which is not silence at the end
of a message unless the parser stood there before, or where a chunked body is over and the call goes
on. -/
inductive Ends (p : Parser) (reply : Reply) : Prop where
  | answers (same : p.advance = reply)
      (going : reply.1 = .ok none → reply.2.state = .complete → p.state = .complete)
  | resumes (chunked : p.state.isChunked = true) (nothing : reply.1 = .ok none)
      (ended : reply.2.state = .complete) (shorter : reply.2.buffer.length < p.buffer.length)
      (later : p.advance = reply.2.advance)

theorem Ends.next {reply : Reply} (h : p.move = .next phase rest) (going : phase.state ≠ .complete)
    (ends : Ends { p with phase := phase, buffer := rest } reply) : Ends p reply := by
  have hlt := length_of_move_next h
  have hadvance := advance_of_next h
  cases ends with
  | answers same still =>
    exact .answers (hadvance.trans same) fun hnone hended => absurd (still hnone hended) going
  | resumes chunked nothing ended shorter later =>
    refine .resumes (isChunked_of_next h ?_) nothing ended (Nat.lt_trans shorter hlt)
      (hadvance.trans later)
    intro hhead
    rw [state, hhead] at chunked
    cases chunked

theorem ends_of_innerPass {reply : Reply} (h : innerPass p = .leave reply) : Ends p reply := by
  unfold innerPass at h
  split at h
  next phase hm =>
    cases h
    refine .answers (advance_of_wait hm) fun _ hended => ?_
    rcases move_wait_cases hm with rfl | ⟨-, rfl, -⟩
    · exact hended
    · cases hended
  next phase rest hm =>
    -- Going on is not leaving, so the move was the one to the end of the message.
    split at h
    next hended =>
      cases h
      refine .resumes (isChunked_of_next hm ?_) rfl hended (length_of_move_next hm)
        (advance_of_next hm)
      rw [hended]
      simp
    · cases h
  next e phase rest hm =>
    cases h
    exact .answers (advance_of_event hm) fun hnone => by cases hnone
  next error hm =>
    cases h
    exact .answers (advance_of_fail hm) fun hnone => by cases hnone

theorem ends_of_within {reply : Reply} (h : Pass.within innerPass passes p = some reply) :
    Ends p reply := by
  induction passes generalizing p with
  | zero => cases h
  | succ passes ih =>
    unfold Pass.within at h
    split at h
    next q hq =>
      obtain ⟨phase, rest, hm, going, rfl⟩ := next_of_innerPass hq
      exact (ih h).next hm going
    next result hleave =>
      cases h
      exact ends_of_innerPass hleave

theorem exists_ends (enough : p.buffer.length < passes) :
    ∃ reply, Pass.within innerPass passes p = some reply ∧ Ends p reply := by
  obtain ⟨reply, hr⟩ := exists_within (fun _ _ => length_of_innerPass) enough
  exact ⟨reply, hr, ends_of_within hr⟩

theorem outerPass_of_unchunked (enough : p.buffer.length < passes)
    (unchunked : p.state.isChunked = false) : outerPass passes p = .leave (some p.advance) := by
  obtain ⟨reply, hr, ends⟩ := exists_ends enough
  rw [outerPass, unchunked, if_neg Bool.false_ne_true, hr]
  cases ends with
  | answers same going => rw [same]
  | resumes chunked nothing ended shorter later =>
    rw [unchunked] at chunked
    cases chunked

theorem length_of_outerPass (h : outerPass passes p = .again q) :
    q.buffer.length < p.buffer.length := by
  unfold outerPass at h
  split at h
  next hchunked =>
    split at h
    next r hr =>
      split at h
      next hended =>
        cases h
        cases ends_of_within hr with
        | answers same going =>
          rw [going rfl hended] at hchunked
          cases hchunked
        | resumes chunked nothing ended shorter later => exact shorter
      · cases h
    · cases h
  · cases h

/-- The loops answer what the call answers, and the outer one makes two passes at most. -/
theorem within_outerPass (enough : p.buffer.length < passes) :
    Pass.within (outerPass passes) 2 p = some (some p.advance) := by
  cases chunked : p.state.isChunked with
  | false => simp [Pass.within, outerPass_of_unchunked enough chunked]
  | true =>
    obtain ⟨⟨result, q⟩, hr, ends⟩ := exists_ends enough
    cases ends with
    | answers same going =>
      have hleave : outerPass passes p = .leave (some p.advance) := by
        rw [outerPass, if_pos chunked, hr, same]
        split
        next r hr =>
          cases hr
          refine if_neg fun hended => ?_
          rw [going rfl hended] at chunked
          cases chunked
        · rfl
      simp [Pass.within, hleave]
    | resumes chunked nothing ended shorter later =>
      -- The second pass is one at the end of a message, and such a pass is the last.
      obtain rfl : result = .ok none := nothing
      have hagain : outerPass passes p = .again q := by
        rw [outerPass, if_pos chunked, hr]
        exact if_pos ended
      have hq : outerPass passes q = .leave (some q.advance) := by
        refine outerPass_of_unchunked (Nat.lt_trans shorter enough) ?_
        rw [ended]
        rfl
      simp [Pass.within, hagain, hq, later]

theorem feedWithin_eq (p : Parser) (data : Bytes) :
    feedWithin (p.buffer.length + data.length + 1) p data = some (p.feed data) := by
  unfold feedWithin feed
  split
  · rfl
  · rw [within_outerPass (by simp)]
    rfl

end Passes

def drainWithin : Nat → Parser → Bytes → Option Run
  | 0, _, _ => none
  | calls + 1, p, data => match p.feed data with
    | (.ok (some e), q) => (drainWithin calls q []).map (Run.after [e])
    | (.ok none, q) => some ([], none, q)
    | (.error error, q) => some ([], some error, q)

end Parser

def Part.unended : Part → Nat
  | .head | .body => 1
  | .ended | .failed => 0

namespace Parser

/-- No more events than this can come before more octets do. -/
def allowance (p : Parser) : Nat := p.buffer.length + p.phase.part.unended

section Calls

variable {p q : Parser} {e : Event} {phase : Phase} {rest data : Bytes} {es : List Event}

theorem unended_le_one (part : Part) : part.unended ≤ 1 := by
  cases part <;> simp [Part.unended]

theorem allowance_of_next (h : p.move = .next phase rest) :
    Parser.allowance { p with phase := phase, buffer := rest } ≤ p.allowance := by
  have hlt := length_of_move_next h
  simp only [allowance, part_of_next h]
  omega

theorem unended_of_event (h : p.move = .event e phase rest) : p.phase.part.unended = 1 := by
  cases hp : p.phase.part with
  | head => rfl
  | body => rfl
  | ended =>
    rw [move_of_ended hp] at h
    cases h
  | failed =>
    rw [move_of_failed hp] at h
    cases h

theorem length_of_event (h : p.move = .event e phase rest) :
    rest.length < p.buffer.length ∨ rest = p.buffer ∧ phase = .complete none := by
  cases hu : p.phase.unreported with
  | zero =>
    have hlt := pending_of_move_event h
    simp only [pending, hu] at hlt
    left
    omega
  | succ n =>
    right
    unfold Phase.unreported at hu
    split at hu
    next trailers hq =>
      simp only [move, hq] at h
      cases h
      exact ⟨rfl, rfl⟩
    · cases hu

theorem allowance_of_event (h : p.move = .event e phase rest) :
    (p.record e phase rest).allowance < p.allowance := by
  have hrecord : (p.record e phase rest).allowance = rest.length + phase.part.unended := by
    cases e <;> rfl
  rw [hrecord, allowance, unended_of_event h]
  rcases length_of_event h with hlt | ⟨rfl, rfl⟩
  · have hle := unended_le_one phase.part
    omega
  · exact Nat.lt_succ_self _

theorem Leads.allowance (h : Leads p es q) : es.length + q.allowance ≤ p.allowance := by
  induction h with
  | refl p => simp
  | next move later ih => exact Nat.le_trans ih (allowance_of_next move)
  | event move later ih =>
    have hlt := allowance_of_event move
    rw [List.length_cons]
    omega

theorem allowance_of_advance {e : Option Event} (h : p.advance = (.ok e, q)) :
    e.toList.length + q.allowance ≤ p.allowance := by
  fun_induction advance p with
  | case1 p phase hm =>
    cases h
    simp [allowance, part_of_wait hm]
  | case2 p phase rest hm ih => exact Nat.le_trans (ih h) (allowance_of_next hm)
  | case3 p event phase rest hm =>
    cases h
    have hlt := allowance_of_event hm
    simp only [Option.toList_some, List.length_singleton]
    omega
  | case4 p error hm => cases h

theorem allowance_of_feed {e : Option Event} (h : p.feed data = (.ok e, q)) :
    e.toList.length + q.allowance ≤ p.allowance + data.length := by
  unfold feed at h
  split at h
  · cases h
  · have hle := allowance_of_advance h
    simp only [allowance, List.length_append] at hle ⊢
    omega

theorem length_events (p : Parser) : p.events.1.length ≤ p.allowance := by
  obtain ⟨es, q, hleads, hstops⟩ := exists_leads_stop p
  have hle := hleads.allowance
  rw [hleads.events_eq]
  rcases hstops with ⟨phase, hq⟩ | ⟨error, hq⟩
  · rw [events_of_wait hq]
    simp only [Run.after, List.append_nil]
    omega
  · rw [events_of_fail hq]
    simp only [Run.after, List.append_nil]
    omega

theorem length_drain (p : Parser) (data : Bytes) :
    (p.drain data).1.length ≤ p.buffer.length + data.length + 1 := by
  unfold drain
  split
  · exact Nat.zero_le _
  · have hle := length_events { p with buffer := p.buffer ++ data }
    have hone := unended_le_one p.phase.part
    simp only [allowance, List.length_append] at hle
    omega

example : (Parser.drain { new .standard with phase := .counted 1 } [104]).1 =
    [.chunk [104], .complete .empty] := by decide +kernel

theorem drainWithin_eq {calls : Nat} (enough : (p.drain data).1.length < calls) :
    drainWithin calls p data = some (p.drain data) := by
  induction calls generalizing p data with
  | zero => omega
  | succ calls ih =>
    by_cases hp : p.phase = .failed
    · simp [drainWithin, drain, feed, hp]
    · have hdrain := drain_eq_feed hp data
      rcases hf : p.feed data with ⟨error | ⟨none | e⟩, q⟩
      · simp [drainWithin, hdrain, hf]
      · simp [drainWithin, hdrain, hf]
      · rw [hf] at hdrain
        rw [hdrain] at enough ⊢
        have hlater : (q.drain []).1.length < calls := by
          simpa [Run.after] using enough
        simp [drainWithin, hf, ih hlater]

theorem suffix_of_event (h : p.move = .event e phase rest) : rest <:+ p.buffer := by
  rcases move_event_cases h with ⟨used, hb, -⟩ | ⟨-, rfl, -⟩
  · exact ⟨used, hb.symm⟩
  · exact List.nil_suffix

theorem suffix_of_advance (p : Parser) : p.advance.2.buffer <:+ p.buffer := by
  fun_induction advance p with
  | case1 p phase hm => exact List.suffix_refl _
  | case2 p phase rest hm ih =>
    obtain ⟨used, hb, -⟩ := move_next_of_rest hm
    exact ih.trans ⟨used, hb.symm⟩
  | case3 p e phase rest hm =>
    have hrecord : (p.record e phase rest).buffer = rest := by
      cases e <;> rfl
    rw [hrecord]
    exact suffix_of_event hm
  | case4 p error hm => exact List.nil_suffix

theorem suffix_of_feed_nil (p : Parser) : (p.feed []).2.buffer <:+ p.buffer := by
  unfold feed
  split
  · exact List.suffix_refl _
  · simpa using suffix_of_advance { p with buffer := p.buffer ++ [] }

end Calls

/-- Reading comes to an end in any state. A pass after which a loop of a call goes on has taken
octets in, so that the loops answer within one pass more than there are octets; draining is over
after one event more than there are octets, and feeding nothing never adds to the buffer. -/
theorem draining_ends (p : Parser) (data : Bytes) :
    ((∀ q r, innerPass q = .again r → r.buffer.length < q.buffer.length) ∧
      (∀ passes q r, outerPass passes q = .again r → r.buffer.length < q.buffer.length) ∧
      feedWithin (p.buffer.length + data.length + 1) p data = some (p.feed data)) ∧
    (drainWithin (p.buffer.length + data.length + 2) p data = some (p.drain data) ∧
      (p.drain data).1.length ≤ p.buffer.length + data.length + 1) ∧
    (p.feed []).2.buffer <:+ p.buffer := by
  have hle := length_drain p data
  refine ⟨⟨fun q r => length_of_innerPass, fun passes q r => length_of_outerPass,
    feedWithin_eq p data⟩, ⟨drainWithin_eq ?_, hle⟩, suffix_of_feed_nil p⟩
  omega

end Parser
end HttpClient
