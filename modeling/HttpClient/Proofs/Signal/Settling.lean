import HttpClient.Proofs.Signal.Forwarding
set_option autoImplicit false

/-!
The operations of a board, which let every cause through at once, are prompt runs of its tasks.
-/

namespace HttpClient
namespace Cell

variable {cells older : List Cell} {c : Cell} {n m i : Nat} {numbers held : List Nat}
  {cause : Cause}

section Watched

theorem watched_closed {P : Nat → Prop} (hheld : ∀ n ∈ held, P n)
    (hinput : ∀ n c, lookup n cells = some c → P n → ∀ i ∈ c.awaited, P i) :
    ∀ n ∈ watched held cells, P n := by
  induction cells generalizing held with
  | nil => simp [watched]
  | cons d older ih =>
    have holder (n : Nat) (c : Cell) (hc : lookup n older = some c) :=
      hinput n c (by rw [lookup_cons_of_lt (lt_of_lookup hc), hc])
    simp only [watched]
    split
    · next hd =>
      have hd : P older.length := hheld _ (List.contains_iff_mem.mp hd)
      refine List.forall_mem_cons.mpr ⟨hd, ih (fun n hn => ?_) holder⟩
      rcases List.mem_append.mp hn with hn | hn
      · exact hinput _ d lookup_cons_length hd n hn
      · exact hheld n hn
    · exact ih hheld holder

theorem mem_watched_of_held (hn : n ∈ held) (hlt : n < cells.length) : n ∈ watched held cells := by
  induction cells generalizing held with
  | nil => cases hlt
  | cons d older ih =>
    simp only [List.length_cons, Nat.lt_succ_iff_lt_or_eq] at hlt
    simp only [watched]
    split
    · rcases hlt with hlt | rfl
      · exact List.mem_cons_of_mem _ (ih (List.mem_append_right _ hn) hlt)
      · exact List.mem_cons_self
    · next hd =>
      refine ih hn (hlt.resolve_right fun he => hd ?_)
      exact List.contains_iff_mem.mpr (he ▸ hn)

theorem lt_of_mem_watched (hn : n ∈ watched held cells) : n < cells.length := by
  induction cells generalizing held with
  | nil => cases hn
  | cons d older ih =>
    simp only [watched] at hn
    split at hn
    · rcases List.mem_cons.mp hn with rfl | hn
      · exact Nat.lt_succ_self _
      · exact Nat.lt_succ_of_lt (ih hn)
    · exact Nat.lt_succ_of_lt (ih hn)

theorem mem_watched_of_awaited (hn : n ∈ watched held cells) (hc : lookup n cells = some c)
    (hi : i ∈ c.awaited) (hlt : i < n) : i ∈ watched held cells := by
  induction cells generalizing held with
  | nil => cases hc
  | cons d older ih =>
    simp only [watched] at hn ⊢
    by_cases hlast : n = older.length
    · subst hlast
      cases (lookup_cons_length.symm.trans hc)
      split
      · exact List.mem_cons_of_mem _ (mem_watched_of_held (List.mem_append_left _ hi) hlt)
      · next hd =>
        rw [if_neg hd] at hn
        exact absurd (lt_of_mem_watched hn) (Nat.lt_irrefl _)
    · rw [lookup_cons, if_neg hlast] at hc
      split
      · next hd =>
        rw [if_pos hd] at hn
        exact List.mem_cons_of_mem _ (ih ((List.mem_cons.mp hn).resolve_left hlast) hc)
      · next hd =>
        rw [if_neg hd] at hn
        exact ih hn hc

end Watched

section Settled

@[simp] theorem length_settle : (settle numbers cells).length = cells.length := by
  induction cells with
  | nil => rfl
  | cons d older ih => simp only [settle]; split <;> simp [ih]

theorem settle_cons : settle numbers (c :: older) =
    (match c.awaited.findSome? (causeOf (settle numbers older)) with
      | some cause => if numbers.contains older.length then c.fire cause else c
      | none => c) :: settle numbers older := by
  simp only [settle, length_settle]
  split <;> simp only [*]

theorem awaited_fire : (c.fire cause).awaited = [] := by
  refine List.eq_nil_iff_forall_not_mem.mpr fun i hi => ?_
  obtain ⟨inputs, -, -, hnone⟩ := of_mem_awaited hi
  simp [fire] at hnone

theorem causeOf_settle_of_awaited (hn : n ∈ numbers)
    (hc : lookup n (settle numbers cells) = some c) (hi : i ∈ c.awaited) (hlt : i < n) :
    causeOf (settle numbers cells) i = none := by
  induction cells with
  | nil => cases hc
  | cons d older ih =>
    have hlen := lt_of_lookup hc
    rw [length_settle, List.length_cons, Nat.lt_succ_iff_lt_or_eq] at hlen
    rw [settle_cons] at hc ⊢
    rw [causeOf_cons_of_lt (by rw [length_settle]; omega)]
    rcases hlen with hlen | rfl
    · rw [lookup_cons_of_lt (by rwa [length_settle])] at hc
      exact ih hc
    · rw [lookup_cons, if_pos length_settle.symm, Option.some.injEq] at hc
      subst hc
      split at hi
      · rw [if_pos (List.contains_iff_mem.mpr hn), awaited_fire] at hi
        cases hi
      · next hnone => exact List.findSome?_eq_none_iff.mp hnone i hi

end Settled
end Cell

namespace Switchboard

variable {s t : Switchboard} {n i : Nat} {cause : Cause}

section Tasks

/-- Tasks lead from the one to the other, without a call. -/
def Works (s t : Switchboard) : Prop :=
  ∃ acts : List Act, (∀ a ∈ acts, ∀ c, a ≠ .call c) ∧ s.run acts = t

theorem Works.refl (s : Switchboard) : Works s s := ⟨[], nofun, rfl⟩

theorem works_act {a : Act} (ha : ∀ c, a ≠ .call c) : Works s (s.act a) :=
  ⟨[a], fun _ hb => List.mem_singleton.mp hb ▸ ha, rfl⟩

theorem Works.trans {u : Switchboard} (h : Works s t) (h' : Works t u) : Works s u := by
  obtain ⟨acts, hacts, rfl⟩ := h
  obtain ⟨more, hmore, rfl⟩ := h'
  refine ⟨acts ++ more, fun a ha => ?_, run_append _ _ _⟩
  exact (List.mem_append.mp ha).elim (hacts a) (hmore a)

theorem Works.prompt (h : Works s t) : ∃ acts, s.Prompt acts ∧ s.run acts = t := by
  obtain ⟨acts, hacts, rfl⟩ := h
  refine ⟨acts, ?_, rfl⟩
  induction acts generalizing s with
  | nil => trivial
  | cons a acts ih =>
    cases a with
    | call c => exact absurd rfl (hacts _ List.mem_cons_self c)
    | forward | release => exact ih fun b hb => hacts b (List.mem_cons_of_mem _ hb)

/-- No joint cell without signals has tasks, nor has one that has fired. -/
def Tidy (s : Switchboard) : Prop := ∀ r ∈ s.relays, s.Alive r.joint ∧ s.causeOf r.joint = none

theorem alive_of_watched (h : s.Sound) : ∀ n ∈ s.board.watched, s.Alive n := by
  refine Cell.watched_closed (fun n => .inl) fun n c hc ha i hi => ?_
  obtain ⟨inputs, ho, hmem, hnone⟩ := Cell.of_mem_awaited hi
  have hcause := (Cell.causeOf_of_lookup hc).trans hnone
  exact .inr ⟨_, h.waiting n inputs ha ⟨c, hc, ho⟩ hcause i hmem, rfl⟩

theorem watched_of_alive (h : s.Sound) (tidy : s.Tidy) (ha : s.Alive n) : n ∈ s.board.watched := by
  have hlt := h.alive_lt ha
  induction hk : s.board.cells.length - n using Nat.strongRecOn generalizing n with
  | _ k ih =>
    rcases ha with hn | ⟨r, hr, rfl⟩
    · exact Cell.mem_watched_of_held hn hlt
    · obtain ⟨ha, hnone⟩ := tidy r hr
      obtain ⟨inputs, hj, hi⟩ := h.relays r hr
      have hold := h.derived.older hj hi
      have hw := ih _ (by have := hj.lt; omega) ha hj.lt rfl
      obtain ⟨c, hc, ho⟩ := hj
      refine Cell.mem_watched_of_awaited hw hc ?_ hold
      exact Cell.awaited_of_joint ho ((Cell.causeOf_of_lookup hc).symm.trans hnone) ▸ hi

/-- Tasks of joint cells below a number lead to these cells. -/
structure Brings (s : Switchboard) (n : Nat) (cells : List Cell) (t : Switchboard) : Prop where
  works : s.Works t
  sound : t.Sound
  board : t.board = { s.board with cells := cells }
  few : ∀ r ∈ t.relays, r ∈ s.relays
  kept : ∀ r ∈ s.relays, n ≤ r.joint → r ∈ t.relays

/-- One more task lets a watched cell fire once the older cells are settled. -/
theorem Brings.forward {newer older settled : List Cell} {c : Cell} (h : s.Sound)
    (hs : s.board.cells = newer ++ c :: older) (hlen : settled.length = older.length)
    (brings : s.Brings older.length (newer ++ c :: settled) t)
    (hn : older.length ∈ s.board.watched) (hi : i ∈ c.awaited)
    (hc : Cell.causeOf settled i = some cause) :
    s.Brings (c :: older).length (newer ++ c.fire cause :: settled)
      (t.act (.forward ⟨older.length, i⟩)) := by
  obtain ⟨inputs, ho, hmem, hnone⟩ := Cell.of_mem_awaited hi
  have hcell : Cell.lookup older.length s.board.cells = some c := by
    rw [hs, Cell.lookup_append_of_lt (Nat.lt_succ_self _), Cell.lookup_cons_length]
  have hj : Cell.Joins s.board.cells older.length inputs := ⟨c, hcell, ho⟩
  have ha := alive_of_watched h _ hn
  have hr : (⟨older.length, i⟩ : Relay) ∈ t.relays :=
    brings.kept _ (h.waiting _ _ ha hj ((Cell.causeOf_of_lookup hcell).trans hnone) i hmem)
      (Nat.le_refl _)
  have hat : t.Alive older.length := by
    rcases ha with hheld | ⟨r, hr, he⟩
    · exact .inl (by rwa [brings.board])
    · obtain ⟨_, hjoins, hinput⟩ := h.relays r hr
      have hold := h.derived.older hjoins hinput
      exact .inr ⟨r, brings.kept r hr (by omega), he⟩
  have hlt : i < settled.length := hlen ▸ h.derived.older hj hmem
  have hti : t.causeOf i = some cause := by
    rw [causeOf, brings.board, Cell.causeOf,
      Cell.lookup_append_of_lt (Nat.lt_succ_of_lt hlt), Cell.lookup_cons_of_lt hlt]
    exact hc
  have ready : t.Ready ⟨older.length, i⟩ := ⟨hr, hat, .inl (by simp [hti])⟩
  have hact : t.act (.forward ⟨older.length, i⟩) =
      ⟨t.board.strike older.length (Cell.fire cause), t.relays.erase ⟨older.length, i⟩⟩ := by
    simp [act, ready, hti]
  refine ⟨brings.works.trans (works_act (forward_ne_call _)), brings.sound.act _, ?_,
    fun r hr => ?_, fun r hr hle => ?_⟩
  · rw [hact, brings.board, Board.strike, ← hlen, Cell.update_append]
  · exact brings.few r (List.mem_of_mem_erase (hact ▸ hr))
  · rw [hact]
    have hne : r ≠ ⟨older.length, i⟩ := by
      rintro rfl
      exact Nat.not_succ_le_self _ hle
    exact (List.mem_erase_of_ne hne).mpr (brings.kept r hr (Nat.le_of_succ_le hle))

theorem exists_brings (h : s.Sound) (newer older : List Cell)
    (hs : s.board.cells = newer ++ older) :
    ∃ t, s.Brings older.length (newer ++ Cell.settle s.board.watched older) t := by
  induction older generalizing newer with
  | nil => exact ⟨s, .refl s, h, by simp [Cell.settle, ← hs], fun _ => id, fun _ hr _ => hr⟩
  | cons c older ih =>
    -- The older cells come first, so what the cell takes over is there when its turn comes.
    obtain ⟨t, brings⟩ := ih (newer ++ [c]) (by simp [hs])
    rw [List.append_assoc, List.singleton_append] at brings
    have rests : s.Brings (c :: older).length
        (newer ++ c :: Cell.settle s.board.watched older) t :=
      { brings with kept := fun r hr hle => brings.kept r hr (Nat.le_of_succ_le hle) }
    rw [Cell.settle_cons]
    split
    · next cause hfound =>
      split
      · next hn =>
        obtain ⟨i, hi, hc⟩ := List.exists_of_findSome?_eq_some hfound
        exact ⟨_, brings.forward h hs Cell.length_settle (List.contains_iff_mem.mp hn) hi hc⟩
      · exact ⟨t, rests⟩
    · exact ⟨t, rests⟩

/-- Between two operations: no cause is on its way, and no task is left over. -/
structure Rested (s : Switchboard) : Prop where
  sound : s.Sound
  tidy : s.Tidy
  quiet : s.Quiet

theorem exists_rested (h : s.Sound) (settled : ∀ r ∈ s.relays, s.Alive r.joint →
    (s.causeOf r.input).isSome → (s.causeOf r.joint).isSome) :
    ∃ t, s.Works t ∧ t.board = s.board ∧ t.Rested := by
  induction hk : s.relays.length generalizing s with
  | zero =>
    have hnil := List.eq_nil_of_length_eq_zero hk
    refine ⟨s, .refl s, rfl, h, fun r hr => ?_, fun r ready => ?_⟩
    · simp [hnil] at hr
    · simpa [hnil] using ready.1
  | succ k ih =>
    have next (r : Relay) (a : Act) (hr : r ∈ s.relays) (ha : ∀ c, a ≠ .call c)
        (hact : s.act a = ⟨s.board, s.relays.erase r⟩) :
        ∃ t, s.Works t ∧ t.board = s.board ∧ t.Rested := by
      have hworked := worked_act (s := s) ha
      have hworks := works_act (s := s) ha
      rw [hact] at hworked hworks
      obtain ⟨t, works, board, rested⟩ := ih (h.worked hworked)
        (fun r' hr' ha' => settled r' (hworked.relays hr') (hworked.alive ha'))
        (by simp [List.length_erase_of_mem hr, hk])
      exact ⟨t, hworks.trans works, board, rested⟩
    by_cases hdead : ∃ r ∈ s.relays, ¬ s.Alive r.joint
    · obtain ⟨r, hr, hdead⟩ := hdead
      exact next r (.release r) hr (release_ne_call r) (by simp [act, hdead])
    have halive : ∀ r ∈ s.relays, s.Alive r.joint := by simpa using hdead
    by_cases hfired : ∃ r ∈ s.relays, (s.causeOf r.joint).isSome
    · obtain ⟨r, hr, hfired⟩ := hfired
      refine next r (.forward r) hr (forward_ne_call r) ?_
      rw [act, if_pos ⟨hr, halive r hr, .inr hfired⟩]
      cases s.causeOf r.input with
      | none => rfl
      | some cause => rw [Option.elim, Board.strike_fire_of_cause hfired]
    have hnone : ∀ r ∈ s.relays, s.causeOf r.joint = none := by simpa using hfired
    refine ⟨s, .refl s, rfl, h, fun r hr => ⟨halive r hr, hnone r hr⟩, fun r ready => ?_⟩
    obtain ⟨hr, ha, hs⟩ := ready
    have hjoint := hs.elim (settled r hr ha) id
    simp [hnone r hr] at hjoint

/-- Settling the board is a run of the tasks, to its end. -/
theorem exists_rested_settle (h : s.Sound) (tidy : s.Tidy) :
    ∃ t, s.Works t ∧ t.board = s.board.settle ∧ t.Rested := by
  obtain ⟨t, brings⟩ := exists_brings h [] s.board.cells rfl
  have hboard : t.board = s.board.settle := brings.board
  have hsettled : ∀ r ∈ t.relays, t.Alive r.joint → (t.causeOf r.input).isSome →
      (t.causeOf r.joint).isSome := by
    intro r hr ha hi
    refine Option.isSome_iff_ne_none.mpr fun hnone => ?_
    have hs : s.Alive r.joint := by
      rcases ha with hn | ⟨r', hr', he⟩
      · exact .inl (by rwa [hboard] at hn)
      · exact .inr ⟨r', brings.few r' hr', he⟩
    obtain ⟨inputs, hj, hmem⟩ := brings.sound.relays r hr
    have hold := brings.sound.derived.older hj hmem
    obtain ⟨c, hc, ho⟩ := hj
    have hawaited := Cell.awaited_of_joint ho ((Cell.causeOf_of_lookup hc).symm.trans hnone)
    rw [hboard] at hc
    have hinput := Cell.causeOf_settle_of_awaited (watched_of_alive h tidy hs) hc
      (hawaited ▸ hmem) hold
    rw [causeOf, hboard, Board.settle, hinput] at hi
    cases hi
  obtain ⟨u, works, hu, rested⟩ := exists_rested brings.sound hsettled
  exact ⟨u, brings.works.trans works, hu.trans hboard, rested⟩

end Tasks

section Operations

variable {b : Board}

/-- A prompt run leads from one time of rest to another, with this board. -/
def Leads (s : Switchboard) (b : Board) : Prop :=
  ∃ acts, s.Prompt acts ∧ (s.run acts).board = b ∧ (s.run acts).Rested

theorem Leads.of_works (works : s.Works t) (rested : t.Rested) : s.Leads t.board := by
  obtain ⟨acts, prompt, rfl⟩ := works.prompt
  exact ⟨acts, prompt, rfl, rested⟩

theorem Leads.trans {later : Board} (h : s.Leads b)
    (h' : ∀ t : Switchboard, t.board = b → t.Rested → t.Leads later) : s.Leads later := by
  obtain ⟨acts, prompt, board, rested⟩ := h
  obtain ⟨more, hmore, hboard, hrested⟩ := h' _ board rested
  refine ⟨acts ++ more, (prompt_append _ _).mpr ⟨prompt, hmore⟩, ?_⟩
  rw [run_append]
  exact ⟨hboard, hrested⟩

theorem Rested.call (h : s.Rested) (c : Call) (lead : (s.call c).Leads b) : s.Leads b := by
  obtain ⟨acts, prompt, board, rested⟩ := lead
  exact ⟨.call c :: acts, ⟨h.quiet, prompt⟩, board, rested⟩

theorem Rested.leads_call (h : s.Rested) (c : Call)
    (same : ∀ n < s.board.cells.length, (s.call c).causeOf n = s.causeOf n) :
    s.Leads (s.call c).board := by
  have called := called_call h.sound c
  have quiet := called.quiet h.sound h.quiet same
  obtain ⟨t, works, board, rested⟩ := exists_rested (h.sound.called called) fun r hr ha hi =>
    absurd ⟨hr, ha, .inl hi⟩ (quiet r)
  exact board ▸ h.call c (.of_works works rested)

theorem Rested.leads_strike (h : s.Rested) (leaf : Cell.Leaf s.board.cells n) (c : Call)
    (hc : s.call c = ⟨s.board.strike n (Cell.fire cause), s.relays⟩) :
    s.Leads (s.board.strike n (Cell.fire cause)).settle := by
  have called := called_call h.sound c
  have tidy : (s.call c).Tidy := by
    rw [hc]
    intro r hr
    obtain ⟨inputs, hj, -⟩ := h.sound.relays r hr
    have hne : r.joint ≠ n := fun he => hj.not_leaf (he ▸ leaf)
    exact ⟨(h.tidy r hr).1, (causeOf_strike_of_ne hne).trans (h.tidy r hr).2⟩
  obtain ⟨t, works, board, rested⟩ := exists_rested_settle (h.sound.called called) tidy
  rw [hc] at board
  exact board ▸ h.call c (.of_works works rested)

theorem Leads.grows (h : s.Leads b) (sound : s.Sound) : Cell.Grows s.board.cells b.cells := by
  obtain ⟨acts, -, board, -⟩ := h
  exact board ▸ sound.grows acts

theorem Rested.leads_timers (h : s.Rested) (timers : List (Nat × Nat))
    (due : ∀ timer ∈ timers, timer.1 ≤ s.board.now ∧
      ∃ c ms, Cell.lookup timer.2 s.board.cells = some c ∧ c.origin = .timer timer.1 ms) :
    s.Leads (timers.foldl (fun b timer => (b.strike timer.2 Cell.expire).settle) s.board) := by
  induction timers generalizing s with
  | nil => exact .of_works (.refl s) h
  | cons timer timers ih =>
    obtain ⟨htime, c, ms, hc, ho⟩ := due timer List.mem_cons_self
    have first : s.Leads (s.board.strike timer.2 Cell.expire).settle := by
      rw [Board.strike_expire hc ho]
      cases hcause : c.cause with
      | none =>
        have hdue : ∃ other ∈ Cell.due s.board.now s.board.cells, other.2 = timer.2 := by
          refine ⟨timer, Cell.mem_due.mpr ⟨ms, ?_, htime⟩, rfl⟩
          rw [hc, ← ho, ← hcause]
        refine h.leads_strike ⟨c, hc, by simp [ho]⟩ (.expire timer.2) ?_
        rw [Switchboard.call, if_pos hdue, Board.strike_expire hc ho]
      | some cause =>
        have hfired : (Cell.causeOf s.board.cells timer.2).isSome := by
          rw [Cell.causeOf_of_lookup hc, hcause, Option.isSome_some]
        rw [Board.strike_fire_of_cause hfired]
        obtain ⟨t, works, board, rested⟩ := exists_rested_settle h.sound h.tidy
        exact board ▸ .of_works works rested
    refine first.trans fun t ht rested => ?_
    rw [List.foldl_cons, ← ht]
    refine ih rested fun other hother => ?_
    obtain ⟨hle, d, ms', hd, ho'⟩ := due other (List.mem_cons_of_mem _ hother)
    obtain ⟨e, he, heq, -⟩ := first.grows h.sound other.2 d hd
    exact ⟨ht ▸ hle, e, ms', ht ▸ he, heq.trans ho'⟩

theorem Rested.leads_expire (h : s.Rested) : s.Leads s.board.expire := by
  refine h.leads_timers _ fun timer ht => ?_
  obtain ⟨ms, hc, hle⟩ := Cell.mem_due.mp (List.mem_mergeSort.mp ht)
  exact ⟨hle, _, ms, hc, rfl⟩

end Operations
end Switchboard

namespace Board

theorem causeOf_combine {b : Board} {signals : List Nat} {n : Nat} (hn : n < b.cells.length) :
    Cell.causeOf (b.combine signals).cells n = Cell.causeOf b.cells n := by
  by_cases hu : b.upstream signals = []
  · rw [combine_of_never hu]
    rfl
  · rw [combine_of_upstream hu]
    exact Cell.causeOf_cons_of_lt hn

inductive Made : Board → Prop where
  | empty : Made empty
  | source {b : Board} (made : Made b) : Made b.addSource
  | watch {b : Board} (made : Made b) (i : Nat) : Made (b.watchSource i)
  | never {b : Board} (made : Made b) : Made b.addNever
  | timeout {b : Board} (made : Made b) (ms : Nat) : Made (b.addTimeout ms)
  | clone {b : Board} (made : Made b) (i : Nat) : Made (b.clone i)
  | combine {b : Board} (made : Made b) (signals : List Nat) : Made (b.combine signals)
  | fire {b : Board} (made : Made b) (i : Nat) (cause : Cause) : Made (b.fire i cause).2
  | advance {b : Board} (made : Made b) (ms : Nat) : Made (b.advance ms)
  | drop {b : Board} (made : Made b) (i : Nat) : Made (b.drop i)
  | dropSource {b : Board} (made : Made b) (i : Nat) : Made (b.dropSource i)

theorem Made.leads {b : Board} (made : Made b) : Switchboard.empty.Leads b := by
  induction made with
  | empty =>
    exact .of_works (.refl _) ⟨Switchboard.sound_empty, nofun, Switchboard.quiet_empty⟩
  | source made ih =>
    refine ih.trans fun t ht rested => ht ▸ rested.leads_call .source fun n hn => ?_
    exact Cell.causeOf_cons_of_lt hn
  | watch made i ih =>
    exact ih.trans fun t ht rested => ht ▸ rested.leads_call (.watch i) fun _ _ => rfl
  | never made ih =>
    exact ih.trans fun t ht rested => ht ▸ rested.leads_call .never fun _ _ => rfl
  | timeout made ms ih =>
    refine ih.trans fun t ht rested => ht ▸ ?_
    refine (rested.leads_call (.timeout ms) fun n hn => ?_).trans fun u hu rested => ?_
    · exact Cell.causeOf_cons_of_lt hn
    · change u.Leads (t.call (.timeout ms)).board.expire
      exact hu ▸ rested.leads_expire
  | clone made i ih =>
    exact ih.trans fun t ht rested => ht ▸ rested.leads_call (.clone i) fun _ _ => rfl
  | combine made signals ih =>
    refine ih.trans fun t ht rested => ht ▸ rested.leads_call (.combine signals) fun n hn => ?_
    exact causeOf_combine hn
  | fire made i cause ih =>
    refine ih.trans fun t ht rested => ?_
    subst ht
    cases hi : t.board.source? i with
    | none =>
      rw [Board.fire, hi]
      exact .of_works (.refl t) rested
    | some n =>
      rw [Board.fire, hi]
      refine rested.leads_strike (rested.sound.sources n (mem_sources_of_source hi))
        (.fire i cause) ?_
      simp [Switchboard.call, hi]
  | advance made ms ih =>
    refine ih.trans fun t ht rested => ht ▸ ?_
    refine (rested.leads_call (.tick ms) fun _ _ => rfl).trans fun u hu rested => ?_
    change u.Leads (t.call (.tick ms)).board.expire
    exact hu ▸ rested.leads_expire
  | drop made i ih =>
    exact ih.trans fun t ht rested => ht ▸ rested.leads_call (.drop i) fun _ _ => rfl
  | dropSource made i ih =>
    exact ih.trans fun t ht rested => ht ▸ rested.leads_call (.dropSource i) fun _ _ => rfl

/-- Between two operations a signal of a combination has fired exactly if an input has. -/
theorem Made.fired_iff {b : Board} {n : Nat} {inputs : List Nat} (made : Made b)
    (hn : n ∈ b.held) (hj : Cell.Joins b.cells n inputs) :
    (Cell.causeOf b.cells n).isSome ↔ ∃ i ∈ inputs, (Cell.causeOf b.cells i).isSome := by
  obtain ⟨acts, -, rfl, rested⟩ := made.leads
  exact rested.quiet.fired_iff rested.sound (.inl hn) hj

end Board
end HttpClient
