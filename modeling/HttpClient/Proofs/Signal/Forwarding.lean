import HttpClient.Proofs.Signal.Switchboard
set_option autoImplicit false

/-!
Which cause a combined signal takes over. In any order of the steps it is one from below. Where the
tasks get time after everything that fires, it is the one that came first.
-/

namespace HttpClient
namespace Switchboard

variable {q s t : Switchboard} {n i : Nat} {inputs : List Nat} {cause : Cause}

section Rest

theorem Sound.alive_lt (h : s.Sound) (ha : s.Alive n) : n < s.board.cells.length := by
  rcases ha with hn | ⟨r, hr, rfl⟩
  · exact h.held n hn
  · obtain ⟨inputs, hj, hi⟩ := h.relays r hr
    exact Nat.lt_trans (h.derived.older hj hi) hj.lt

theorem Quiet.input (quiet : s.Quiet) (h : s.Sound) (ha : s.Alive n)
    (hj : Cell.Joins s.board.cells n inputs) (hn : s.causeOf n = none) (hi : i ∈ inputs) :
    s.causeOf i = none ∧ s.Alive i := by
  have hr := h.waiting n inputs ha hj hn i hi
  refine ⟨Option.not_isSome_iff_eq_none.mp fun hs => ?_, .inr ⟨_, hr, rfl⟩⟩
  exact quiet _ ⟨hr, ha, .inl hs⟩

/-- At rest no cause is on its way, over however many combinations. -/
theorem Quiet.isSome_of_feeds {leaf : Nat} (quiet : s.Quiet) (h : s.Sound) (ha : s.Alive n)
    (feeds : Cell.Feeds s.board.cells leaf n) (hl : (s.causeOf leaf).isSome) :
    (s.causeOf n).isSome := by
  induction feeds with
  | leaf => exact hl
  | input joins mem feeds ih =>
    refine Option.isSome_iff_ne_none.mpr fun hn => ?_
    obtain ⟨hi, ha⟩ := quiet.input h ha joins hn mem
    simpa [hi] using ih ha

theorem Sound.isSome_of_joins (h : s.Sound) (hj : Cell.Joins s.board.cells n inputs)
    (hn : (s.causeOf n).isSome) : ∃ i ∈ inputs, (s.causeOf i).isSome := by
  obtain ⟨cause, hn⟩ := Option.isSome_iff_exists.mp hn
  obtain ⟨i, hi, hc⟩ := h.derived.taken hj hn
  exact ⟨i, hi, Option.isSome_iff_exists.mpr ⟨cause, hc⟩⟩

theorem Quiet.fired_iff (quiet : s.Quiet) (h : s.Sound) (ha : s.Alive n)
    (hj : Cell.Joins s.board.cells n inputs) :
    (s.causeOf n).isSome ↔ ∃ i ∈ inputs, (s.causeOf i).isSome := by
  refine ⟨h.isSome_of_joins hj, fun ⟨i, hi, hs⟩ => Option.isSome_iff_ne_none.mpr fun hn => ?_⟩
  simp [(quiet.input h ha hj hn hi).1] at hs

theorem Quiet.fired_iff_leaf (quiet : s.Quiet) (h : s.Sound) (ha : s.Alive n) :
    (s.causeOf n).isSome ↔
      ∃ leaf, Cell.Feeds s.board.cells leaf n ∧ (s.causeOf leaf).isSome := by
  refine ⟨fun hn => ?_, fun ⟨leaf, feeds, hl⟩ => quiet.isSome_of_feeds h ha feeds hl⟩
  obtain ⟨cause, hn⟩ := Option.isSome_iff_exists.mp hn
  obtain ⟨leaf, feeds, hl⟩ := h.derived.exists_leaf hn
  exact ⟨leaf, feeds, Option.isSome_iff_exists.mpr ⟨cause, hl⟩⟩

theorem quiet_empty : empty.Quiet := fun _ ready => by cases ready.1

end Rest

section Promptness

/-- The tasks come to rest before each call. -/
def Prompt : Switchboard → List Act → Prop
  | _, [] => True
  | s, .call c :: acts => s.Quiet ∧ Prompt (s.call c) acts
  | s, a :: acts => Prompt (s.act a) acts

theorem prompt_append (xs ys : List Act) :
    s.Prompt (xs ++ ys) ↔ s.Prompt xs ∧ (s.run xs).Prompt ys := by
  induction xs generalizing s with
  | nil => simp [Prompt]
  | cons a xs ih => cases a <;> simp [Prompt, ih, and_assoc, act]

/-- Everything that has fired since the board was at rest, with no new signals in between, has got
one and the same cause. -/
structure Era (q s : Switchboard) (cause : Cause) : Prop where
  sound : q.Sound
  quiet : q.Quiet
  grows : Cell.Grows q.board.cells s.board.cells
  alive : ∀ n, s.Alive n → q.Alive n
  fired : ∀ n later, q.causeOf n = none → s.causeOf n = some later → later = cause

theorem Era.refl (h : s.Sound) (quiet : s.Quiet) (cause : Cause) : Era s s cause :=
  ⟨h, quiet, .refl _, fun _ => id, fun n later hn hs => by simp [hn] at hs⟩

theorem Era.input (era : Era q s cause) (ha : s.Alive n)
    (hj : Cell.Joins s.board.cells n inputs) (hn : s.causeOf n = none) (hi : i ∈ inputs) :
    q.causeOf i = none := by
  have ha := era.alive n ha
  have hj := era.grows.joins_of_lt (era.sound.alive_lt ha) hj
  exact (era.quiet.input era.sound ha hj (era.grows.causeOf_eq_none hn) hi).1

theorem Era.worked (era : Era q s cause) (h : s.Sound) (hw : s.Worked t) : Era q t cause where
  sound := era.sound
  quiet := era.quiet
  grows := era.grows.trans (hw.stirs h).grows
  alive n ht := era.alive n (hw.alive ht)
  fired n later hq ht := by
    cases hw with
    | rests | ends | stops => exact era.fired n later hq ht
    | @passes r passed ready found =>
      obtain ⟨inputs, hj, hi⟩ := h.relays r ready.1
      by_cases hn : n = r.joint
      · subst hn
        rw [causeOf_strike hj.lt] at ht
        cases hs : s.causeOf r.joint with
        | none =>
          have hpassed := era.fired _ passed (era.input ready.2.1 hj hs hi) found
          simpa [hs, hpassed] using ht.symm
        | some first => exact era.fired _ later hq (by simpa [hs] using ht)
      · exact era.fired n later hq (causeOf_strike_of_ne hn ▸ ht)

theorem Called.ready {r : Relay} (hc : s.Called t) (h : s.Sound) (hr : r ∈ s.relays)
    (same : ∀ n < s.board.cells.length, t.causeOf n = s.causeOf n) (ready : t.Ready r) :
    s.Ready r := by
  obtain ⟨inputs, hj, hi⟩ := h.relays r hr
  have ha : s.Alive r.joint :=
    (hc.alive ready.2.1).resolve_right (not_or.mpr ⟨Nat.ne_of_lt hj.lt, hj.not_leaf⟩)
  have hlt := Nat.lt_trans (h.derived.older hj hi) hj.lt
  exact ⟨hr, ha, by simpa [same _ hlt, same _ hj.lt] using ready.2.2⟩

theorem Called.quiet (hc : s.Called t) (h : s.Sound) (quiet : s.Quiet)
    (same : ∀ n < s.board.cells.length, t.causeOf n = s.causeOf n) : t.Quiet := by
  intro r ready
  have old : r ∉ s.relays := fun hr => quiet r (hc.ready h hr same ready)
  cases hc with
  | signals | leaf | fires => exact old ready.1
  | @joint b inputs upstream cells =>
    obtain ⟨hjoint, c, hcell, hi⟩ :=
      Board.mem_relays.mp ((List.mem_append.mp ready.1).resolve_left old)
    rw [cells, Cell.lookup_cons_length] at hcell
    cases hcell
    obtain ⟨_, ho, hi, hnone⟩ := Cell.of_mem_awaited hi
    cases ho
    have hinput := List.findSome?_eq_none_iff.mp hnone _ hi
    have hnew : Cell.causeOf b.cells s.board.cells.length = none := by
      rw [cells, Cell.causeOf_of_lookup Cell.lookup_cons_length, hnone]
    rcases ready.2.2 with hs | hs
    · rw [same _ (h.held _ (upstream _ hi)), Switchboard.causeOf, hinput] at hs
      cases hs
    · rw [Switchboard.causeOf, hjoint, hnew] at hs
      cases hs

/-- After a call at rest there is rest, or something has fired. -/
theorem Era.called (h : s.Sound) (quiet : s.Quiet) (hc : s.Called t) :
    ∃ q cause, Era q t cause := by
  have rests (same : ∀ n < s.board.cells.length, t.causeOf n = s.causeOf n) :
      ∃ q cause, Era q t cause :=
    ⟨t, .cancelled, .refl (h.called hc) (hc.quiet h quiet same) .cancelled⟩
  cases hc with
  | signals cells => exact rests fun n _ => by simp only [causeOf, cells]
  | leaf cells leaf | joint upstream cells =>
    exact rests fun n hn => by simp only [causeOf, cells, Cell.causeOf_cons_of_lt hn]
  | @fires n cause leaf =>
    -- What fires here is all that has fired since the rest before this call.
    refine ⟨s, cause, h, quiet, Cell.grows_update_fire, fun _ => id, fun m later hs ht => ?_⟩
    by_cases hm : m = n
    · subst hm
      simpa [causeOf_strike leaf.lt, hs] using ht.symm
    · simp [causeOf_strike_of_ne hm, hs] at ht

theorem exists_era {acts : List Act} (h : s.Sound) (era : ∃ q cause, Era q s cause)
    (prompt : s.Prompt acts) : ∃ q cause, Era q (s.run acts) cause := by
  induction acts generalizing s with
  | nil => exact era
  | cons a acts ih =>
    cases a with
    | call c => exact ih (h.act _) (Era.called h prompt.1 (called_call h c)) prompt.2
    | forward r =>
      obtain ⟨q, cause, era⟩ := era
      exact ih (h.act _) ⟨q, cause, era.worked h (worked_act (forward_ne_call r))⟩ prompt
    | release r =>
      obtain ⟨q, cause, era⟩ := era
      exact ih (h.act _) ⟨q, cause, era.worked h (worked_act (release_ne_call r))⟩ prompt

theorem Worked.fires (hw : s.Worked t) (h : s.Sound) (hj : Cell.Joins s.board.cells n inputs)
    (hn : s.causeOf n = none) (hc : t.causeOf n = some cause) :
    s.Alive n ∧ ∃ i ∈ inputs, s.causeOf i = some cause := by
  cases hw with
  | rests | ends | stops => exact absurd (hc.symm.trans hn) nofun
  | @passes r passed ready found =>
    obtain ⟨others, hr, hi⟩ := h.relays r ready.1
    by_cases hne : n = r.joint
    · subst hne
      rw [causeOf_strike hj.lt, hn] at hc
      cases hr.unique hj
      exact ⟨ready.2.1, _, hi, found.trans hc⟩
    · simp [causeOf_strike_of_ne hne, hn] at hc

theorem Sound.fires {a : Act} (h : s.Sound) (hj : Cell.Joins s.board.cells n inputs)
    (hn : s.causeOf n = none) (hc : (s.act a).causeOf n = some cause) :
    s.Alive n ∧ ∃ i ∈ inputs, s.causeOf i = some cause := by
  rcases called_or_worked h a with called | worked
  · exact absurd (hc.symm.trans ((called.causeOf hj.lt hj.not_leaf).trans hn)) nofun
  · exact worked.fires h hj hn hc

/-- Where none of its inputs has fired at first, a joint cell takes over the cause of the one that
fires first. -/
theorem exists_first_input {acts : List Act} (h : s.Sound) (era : ∃ q cause, Era q s cause)
    (prompt : s.Prompt acts) (hj : Cell.Joins s.board.cells n inputs)
    (hnone : ∀ i ∈ inputs, s.causeOf i = none) (hn : s.causeOf n = none)
    (hc : (s.run acts).causeOf n = some cause) : ∃ xs a ys, acts = xs ++ a :: ys ∧
      (∀ i ∈ inputs, (s.run xs).causeOf i = none) ∧
      (∃ i ∈ inputs, (((s.run xs).act a).causeOf i).isSome) ∧
      ∀ i ∈ inputs, ∀ first, ((s.run xs).act a).causeOf i = some first → first = cause := by
  have hfired : ((s.run acts).causeOf n).isSome := Option.isSome_iff_exists.mpr ⟨cause, hc⟩
  obtain ⟨before, b, after, rfl, hbefore, hb⟩ :=
    exists_first (P := fun t => (t.causeOf n).isSome) hfired (by simp [hn])
  have sound := h.run before
  have hj := (h.grows before).joins hj
  have hbefore := Option.not_isSome_iff_eq_none.mp hbefore
  obtain ⟨taken, hb⟩ := Option.isSome_iff_exists.mp hb
  obtain rfl : taken = cause := by
    have hlast := ((sound.act b).grows after).causeOf hb
    rw [run_append, run_cons] at hc
    exact Option.some.inj (hlast.symm.trans hc)
  obtain ⟨ha, i, hi, hci⟩ := sound.fires hj hbefore hb
  -- The joint cell had not fired at the last rest, nor had its inputs: they agree by now.
  obtain ⟨q, shared, era⟩ := exists_era h era ((prompt_append _ _).mp prompt).1
  have agree (k : Nat) (hk : k ∈ inputs) (first : Cause)
      (hf : (s.run before).causeOf k = some first) : first = taken :=
    (era.fired k first (era.input ha hj hbefore hk) hf).trans
      (era.fired i taken (era.input ha hj hbefore hi) hci).symm
  have hfound : ∃ i ∈ inputs, ((s.run before).causeOf i).isSome :=
    ⟨i, hi, Option.isSome_iff_exists.mpr ⟨taken, hci⟩⟩
  obtain ⟨xs, a, ys, rfl, hxs, hfirst⟩ :=
    exists_first (P := fun t => ∃ i ∈ inputs, (t.causeOf i).isSome) hfound (by simpa using hnone)
  refine ⟨xs, a, ys ++ b :: after, by simp, by simpa using hxs, hfirst, fun k hk first hf => ?_⟩
  refine agree k hk first ?_
  rw [run_append, run_cons]
  exact (((h.run xs).act a).grows ys).causeOf hf

end Promptness

section Combinations

variable {xs ys acts : List Act} {signals : List Nat}

theorem signals_act (s : Switchboard) (a : Act) :
    (∃ new, (s.act a).board.signals = s.board.signals ++ new) ∨
      ∃ i, (s.act a).board.signals = s.board.signals.set i none := by
  cases a with
  | forward r => exact .inl ⟨[], by simp [(worked_act (s := s) (forward_ne_call r)).signals]⟩
  | release r => exact .inl ⟨[], by simp [(worked_act (s := s) (release_ne_call r)).signals]⟩
  | call c =>
    cases c with
    | drop i => exact .inr ⟨i, rfl⟩
    | watch | never | timeout | clone => exact .inl ⟨_, rfl⟩
    | source | tick | dropSource => exact .inl ⟨[], by simp [act, call, Board.addSource,
        Board.addCell, Board.dropSource]⟩
    | combine signals =>
      by_cases hu : s.board.upstream signals = []
      · exact .inl ⟨_, by rw [act, call, Board.combine_of_never hu]; rfl⟩
      · exact .inl ⟨_, by rw [act, call, Board.combine_of_upstream hu]; rfl⟩
    | fire i cause =>
      exact .inl ⟨[], by cases h : s.board.source? i <;> simp [act, call, h, Board.strike]⟩
    | expire n => exact .inl ⟨[], by simp only [act, call]; split <;> simp [Board.strike]⟩

theorem signal_of_never {k : Nat} (acts : List Act) (hk : k < s.board.signals.length)
    (hs : ∀ signal, s.board.signal? k = some signal → signal.cell = none) :
    k < (s.run acts).board.signals.length ∧
      ∀ signal, (s.run acts).board.signal? k = some signal → signal.cell = none := by
  induction acts generalizing s with
  | nil => exact ⟨hk, hs⟩
  | cons a acts ih =>
    simp only [Board.signal?] at hs
    rcases signals_act s a with ⟨new, he⟩ | ⟨i, he⟩
    · refine ih (by simp [he]; omega) fun signal h => hs signal ?_
      rwa [Board.signal?, he, List.getElem?_append_left hk] at h
    · refine ih (by simpa [he] using hk) fun signal h => ?_
      rw [Board.signal?, he, List.getElem?_set] at h
      by_cases hi : i = k
      · simp [hi, hk] at h
      · exact hs signal (by simpa [hi] using h)

theorem cause_of_never {k : Nat} (hs : s.board.signal? k = some ⟨none⟩) (acts : List Act) :
    ((s.run acts).board.signal? k).bind (s.run acts).board.causeOf = none := by
  have hk : k < s.board.signals.length := by
    obtain ⟨hk, -⟩ := List.getElem?_eq_some_iff.mp (Option.join_eq_some_iff.mp hs)
    exact hk
  have hnone (signal : Signal) (h : s.board.signal? k = some signal) : signal.cell = none := by
    cases hs.symm.trans h
    rfl
  obtain ⟨-, hlater⟩ := signal_of_never acts hk hnone
  cases h : (s.run acts).board.signal? k with
  | none => rfl
  | some signal => simp [Board.causeOf, hlater signal h]

/-- The switchboard after these acts. -/
def after (acts : List Act) : Switchboard := empty.run acts

/-- The signal that combining these signals after the acts gives. -/
def combination (acts : List Act) (signals : List Nat) : Option Signal :=
  (after (acts ++ [.call (.combine signals)])).board.signal? (after acts).board.signals.length

theorem sound_after (acts : List Act) : (after acts).Sound := sound_empty.run acts

theorem after_append : after (xs ++ ys) = (after xs).run ys := run_append _ _ _

theorem combination_of_never (h : (after xs).board.upstream signals = []) :
    combination xs signals = some ⟨none⟩ := by
  rw [combination, after_append, run_cons, act, call, run_nil, Board.combine_of_never h]
  simp [Board.addNever, Board.addSignal, Board.signal?]

theorem after_combine (zs : List Act) : after (xs ++ .call (.combine signals) :: zs) =
    (after (xs ++ [.call (.combine signals)])).run zs := by
  simp [after_append]

structure Combined (xs : List Act) (signals : List Nat) (n : Nat) : Prop where
  joins : Cell.Joins (after (xs ++ [.call (.combine signals)])).board.cells n
    ((after xs).board.upstream signals)
  causeOf : (after (xs ++ [.call (.combine signals)])).causeOf n =
    ((after xs).board.upstream signals).findSome? (after xs).causeOf
  inputs : ∀ i ∈ (after xs).board.upstream signals,
    (after (xs ++ [.call (.combine signals)])).causeOf i = (after xs).causeOf i

theorem board_of_upstream (h : (after xs).board.upstream signals ≠ []) :
    (after (xs ++ [.call (.combine signals)])).board =
      ((after xs).board.addCell ⟨.joint ((after xs).board.upstream signals),
        ((after xs).board.upstream signals).findSome? (after xs).causeOf⟩).addSignal
          ⟨some (after xs).board.cells.length⟩ := by
  rw [after_append, run_cons, act, call, run_nil, Board.combine_of_upstream h]
  rfl

theorem combination_of_upstream (h : (after xs).board.upstream signals ≠ []) :
    combination xs signals = some ⟨some (after xs).board.cells.length⟩ := by
  simp only [combination, board_of_upstream h, Board.signal?, Board.addSignal, Board.addCell,
    List.getElem?_concat_length, Option.join_some]

theorem combined_of_combination (h : combination xs signals = some ⟨some n⟩) :
    Combined xs signals n := by
  by_cases hu : (after xs).board.upstream signals = []
  · simp [combination_of_never hu] at h
  have hmade := board_of_upstream hu
  rw [combination_of_upstream hu, Option.some.injEq, Signal.mk.injEq, Option.some.injEq] at h
  subst h
  refine ⟨?_, ?_, fun i hi => ?_⟩
  · rw [hmade]
    exact ⟨_, Cell.lookup_cons_length, rfl⟩
  · rw [causeOf, hmade]
    exact Cell.causeOf_of_lookup Cell.lookup_cons_length
  · rw [causeOf, hmade]
    exact Cell.causeOf_cons_of_lt ((sound_after xs).held i (Board.mem_held_of_upstream hi))

theorem after_act (xs : List Act) (a : Act) (zs : List Act) :
    after (xs ++ a :: zs) = ((after xs).act a).run zs := by
  rw [after_append, run_cons]

theorem causeOf_after {a : Act} (zs : List Act) (h : ((after xs).act a).causeOf n = some cause) :
    (after (xs ++ a :: zs)).causeOf n = some cause := by
  rw [after_act]
  exact (((sound_after xs).act a).grows zs).causeOf h

theorem causeOf_fire {source : Nat} (zs : List Act)
    (h : (after xs).board.source? source = some n) :
    (after (xs ++ .call (.fire source cause) :: zs)).causeOf n =
      some (((after xs).causeOf n).getD cause) := by
  have leaf := (sound_after xs).sources n (Board.mem_sources_of_source h)
  refine causeOf_after zs ?_
  rw [act, call, h]
  exact causeOf_strike leaf.lt

theorem causeOf_expire {c : Cell} {deadline ms : Nat} (zs : List Act)
    (hc : Cell.lookup n (after xs).board.cells = some c) (ho : c.origin = .timer deadline ms)
    (due : deadline ≤ (after xs).board.now) :
    (after (xs ++ .call (.expire n) :: zs)).causeOf n =
      some (((after xs).causeOf n).getD (.timeout ms)) := by
  refine causeOf_after zs ?_
  rw [act, call]
  split
  · rw [Board.strike_expire hc ho]
    exact causeOf_strike (Cell.lt_of_lookup hc)
  -- Only a timer that has fired before is not due any more.
  · next hnot =>
    cases hcause : c.cause with
    | none =>
      refine absurd ⟨(deadline, n), Cell.mem_due.mpr ⟨ms, ?_, due⟩, rfl⟩ hnot
      rw [hc, ← ho, ← hcause]
    | some first => rw [causeOf, Cell.causeOf_of_lookup hc, hcause, Option.getD_some]

theorem exists_quiet (s : Switchboard) :
    ∃ relays : List Relay, (s.run (relays.map .forward)).Quiet := by
  induction hk : s.relays.length generalizing s with
  | zero =>
    refine ⟨[], fun r ready => ?_⟩
    have hr : r ∈ s.relays := ready.1
    simp [List.eq_nil_of_length_eq_zero hk] at hr
  | succ k ih =>
    by_cases quiet : s.Quiet
    · exact ⟨[], quiet⟩
    obtain ⟨r, ready⟩ : ∃ r, s.Ready r := by simpa [Quiet] using quiet
    have hless : (s.act (.forward r)).relays.length = k := by
      rw [act, if_pos ready, List.length_erase_of_mem ready.1, hk]
      rfl
    obtain ⟨relays, hq⟩ := ih (s.act (.forward r)) hless
    exact ⟨r :: relays, hq⟩

theorem Combined.early {zs : List Act} (h : Combined xs signals n)
    (hs : ((after xs).board.upstream signals).findSome? (after xs).causeOf = some cause) :
    (after (xs ++ .call (.combine signals) :: zs)).causeOf n = some cause := by
  rw [after_combine]
  exact ((sound_after _).grows zs).causeOf (h.causeOf.trans hs)

theorem Combined.late {zs : List Act} (h : Combined xs signals n)
    (prompt : empty.Prompt (xs ++ .call (.combine signals) :: zs))
    (hs : ((after xs).board.upstream signals).findSome? (after xs).causeOf = none)
    (hc : (after (xs ++ .call (.combine signals) :: zs)).causeOf n = some cause) :
    ∃ before a rest, zs = before ++ a :: rest ∧
      (∀ i ∈ (after xs).board.upstream signals,
        (after (xs ++ .call (.combine signals) :: before)).causeOf i = none) ∧
      (∃ i ∈ (after xs).board.upstream signals,
        ((after (xs ++ .call (.combine signals) :: (before ++ [a]))).causeOf i).isSome) ∧
      ∀ i ∈ (after xs).board.upstream signals, ∀ first,
        (after (xs ++ .call (.combine signals) :: (before ++ [a]))).causeOf i = some first →
        first = cause := by
  have hprompt : empty.Prompt ((xs ++ [.call (.combine signals)]) ++ zs) := by simpa using prompt
  obtain ⟨hmade, hrest⟩ := (prompt_append _ _).mp hprompt
  have era := exists_era sound_empty ⟨_, .cancelled, .refl sound_empty quiet_empty _⟩ hmade
  have hinputs (i : Nat) (hi : i ∈ (after xs).board.upstream signals) :=
    (h.inputs i hi).trans (List.findSome?_eq_none_iff.mp hs i hi)
  rw [after_combine] at hc
  obtain ⟨before, a, rest, rfl, hbefore, hfirst, hagree⟩ := exists_first_input (sound_after _) era
    hrest h.joins hinputs (h.causeOf.trans hs) hc
  refine ⟨before, a, rest, rfl, ?_⟩
  rw [after_combine before, after_combine (before ++ [a]), run_append, run_cons, run_nil]
  exact ⟨hbefore, hfirst, hagree⟩

/-- What combined signals owe to those they were made from. -/
structure Upheld (acts : List Act) : Prop where
  fires : ∀ xs source cause ys n, acts = xs ++ .call (.fire source cause) :: ys →
    (after xs).board.source? source = some n →
    (after acts).causeOf n = some (((after xs).causeOf n).getD cause)
  expires : ∀ xs n ys c deadline ms, acts = xs ++ .call (.expire n) :: ys →
    Cell.lookup n (after xs).board.cells = some c → c.origin = .timer deadline ms →
    deadline ≤ (after xs).board.now →
    (after acts).causeOf n = some (((after xs).causeOf n).getD (.timeout ms))
  watches : ∀ xs source, (after (xs ++ [.call (.watch source)])).board.signal?
    (after xs).board.signals.length = some ⟨(after xs).board.source? source⟩
  clones : ∀ xs i signal, (after xs).board.signal? i = some signal →
    (after (xs ++ [.call (.clone i)])).board.signal? (after xs).board.signals.length = some signal
  /-- Where one of the signals watches a cell, the combination watches a new one over all of these
  cells. -/
  made : ∀ xs signals ys, acts = xs ++ .call (.combine signals) :: ys →
    (after xs).board.upstream signals ≠ [] → ∃ n, combination xs signals = some ⟨some n⟩ ∧
    (after xs).board.cells.length = n ∧
    Cell.Joins (after (xs ++ [.call (.combine signals)])).board.cells n
      ((after xs).board.upstream signals) ∧
    Cell.Joins (after acts).board.cells n ((after xs).board.upstream signals)
  settles : ∃ relays : List Relay, (after (acts ++ relays.map .forward)).Quiet
  keeps : ∀ xs ys, acts = xs ++ ys → ∀ n cause, (after xs).causeOf n = some cause →
    (after acts).causeOf n = some cause
  rooted : ∀ n cause, (after acts).causeOf n = some cause → ∃ leaf,
    Cell.Feeds (after acts).board.cells leaf n ∧ (after acts).causeOf leaf = some cause
  spurred : ∀ n inputs, Cell.Joins (after acts).board.cells n inputs →
    ((after acts).causeOf n).isSome → ∃ i ∈ inputs, ((after acts).causeOf i).isSome
  /-- At rest a combined signal has fired as soon as an input has, and as soon as a leaf has. -/
  rests : (after acts).Quiet → ∀ n inputs, (after acts).Alive n →
    Cell.Joins (after acts).board.cells n inputs →
    (((after acts).causeOf n).isSome ↔ ∃ i ∈ inputs, ((after acts).causeOf i).isSome) ∧
    (((after acts).causeOf n).isSome ↔ ∃ leaf,
      Cell.Feeds (after acts).board.cells leaf n ∧ ((after acts).causeOf leaf).isSome)
  /-- The first input in the list that has fired when the combination is made gives the cause. -/
  early : ∀ xs signals ys n, acts = xs ++ .call (.combine signals) :: ys →
    combination xs signals = some ⟨some n⟩ → ∀ cause,
    ((after xs).board.upstream signals).findSome? (after xs).causeOf = some cause →
    (after acts).causeOf n = some cause
  /-- Where none has, the first that fires gives it if the tasks are prompt. -/
  late : empty.Prompt acts → ∀ xs signals ys n, acts = xs ++ .call (.combine signals) :: ys →
    combination xs signals = some ⟨some n⟩ →
    ((after xs).board.upstream signals).findSome? (after xs).causeOf = none → ∀ cause,
    (after acts).causeOf n = some cause → ∃ zs a rest, ys = zs ++ a :: rest ∧
      (∀ i ∈ (after xs).board.upstream signals,
        (after (xs ++ .call (.combine signals) :: zs)).causeOf i = none) ∧
      (∃ i ∈ (after xs).board.upstream signals,
        ((after (xs ++ .call (.combine signals) :: (zs ++ [a]))).causeOf i).isSome) ∧
      ∀ i ∈ (after xs).board.upstream signals, ∀ first,
        (after (xs ++ .call (.combine signals) :: (zs ++ [a]))).causeOf i = some first →
        first = cause
  never : ∀ xs signals ys, acts = xs ++ .call (.combine signals) :: ys →
    (∀ i ∈ signals, ((after xs).board.signal? i).bind (·.cell) = none) →
    combination xs signals = some ⟨none⟩ ∧
    ((after acts).board.signal? (after xs).board.signals.length).bind
      (after acts).board.causeOf = none

/-- Whatever callers, the clock and the tasks do, and in whatever order. -/
theorem combinations_follow_upstream (acts : List Act) : Upheld acts where
  fires xs source cause ys n he h := he ▸ causeOf_fire ys h
  expires xs n ys c deadline ms he hc ho due := he ▸ causeOf_expire ys hc ho due
  watches xs source := by
    rw [after_act, act, call, run_nil]
    simp [Board.watchSource, Board.addSignal, Board.signal?]
  clones xs i signal h := by
    rw [after_act, act, call, run_nil, Board.clone, h]
    simp [Board.addSignal, Board.signal?]
  made xs signals ys he hu := by
    have hmade := combination_of_upstream hu
    have joins := (combined_of_combination hmade).joins
    refine ⟨_, hmade, rfl, joins, ?_⟩
    rw [he, after_combine]
    exact ((sound_after _).grows ys).joins joins
  settles := by
    obtain ⟨relays, quiet⟩ := exists_quiet (after acts)
    exact ⟨relays, after_append ▸ quiet⟩
  keeps xs ys he n cause hc := by
    rw [he, after_append]
    exact ((sound_after xs).grows ys).causeOf hc
  rooted n cause := (sound_after acts).derived.exists_leaf
  spurred n inputs := (sound_after acts).isSome_of_joins
  rests quiet n inputs ha hj :=
    ⟨quiet.fired_iff (sound_after acts) ha hj, quiet.fired_iff_leaf (sound_after acts) ha⟩
  early xs signals ys n he h cause hs := he ▸ (combined_of_combination h).early hs
  late prompt xs signals ys n he h hs cause hc := by
    subst he
    exact (combined_of_combination h).late prompt hs hc
  never xs signals ys he h := by
    have hnone : (after xs).board.upstream signals = [] := List.filterMap_eq_nil_iff.mpr h
    have hmade := combination_of_never hnone
    refine ⟨hmade, ?_⟩
    rw [he, after_combine]
    exact cause_of_never hmade ys

/-- A source fires, and two tasks carry its cause through a combination of a combination. -/
theorem nested_combination_fires :
    let acts : List Act := [.call .source, .call (.watch 0), .call .never,
      .call (.combine [0, 1]), .call (.clone 2), .call (.combine [1, 3]),
      .call (.fire 0 .cancelled), .forward ⟨1, 0⟩, .forward ⟨2, 1⟩]
    (after acts).board.signal? 4 = some ⟨some 2⟩ ∧ (after acts).causeOf 2 = some .cancelled ∧
      ∃ leaf, Cell.Feeds (after acts).board.cells leaf 2 ∧
        (after acts).causeOf leaf = some .cancelled :=
  ⟨by decide, by decide, (combinations_follow_upstream _).rooted 2 .cancelled (by decide)⟩

example : (after [.call .source, .call .source, .call (.watch 0), .call (.watch 1),
    .call (.combine [0, 1]), .call (.fire 1 (.timeout 5)), .call (.fire 0 .cancelled),
    .forward ⟨2, 0⟩]).causeOf 2 = some .cancelled := by decide

end Combinations
end Switchboard
end HttpClient
