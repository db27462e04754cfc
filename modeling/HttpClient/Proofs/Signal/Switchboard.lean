import HttpClient.Proofs.Signal.Cells
set_option autoImplicit false

/-!
The board with its causes on their way. A joint cell has a task for each of its inputs, and between
any two steps of the tasks the callers and the clock can do something else.
-/

namespace HttpClient

/-- A task that waits for a cell in the name of a joint cell. It holds a signal of the cell for as
long as it lasts. -/
structure Relay where
  joint : Nat
  input : Nat
  deriving DecidableEq, Repr

namespace Board

/-- The cells that a combination of these signals would wait for. -/
def upstream (b : Board) (signals : List Nat) : List Nat :=
  signals.filterMap fun i => (b.signal? i).bind (·.cell)

def strike (b : Board) (n : Nat) (f : Cell → Cell) : Board :=
  { b with cells := Cell.update n f b.cells }

def relays (b : Board) (n : Nat) : List Relay :=
  ((Cell.lookup n b.cells).elim [] Cell.awaited).map (⟨n, ·⟩)

section

variable {b : Board} {s : Signal} {signals : List Nat} {i n : Nat}

theorem combine_of_never (h : b.upstream signals = []) : b.combine signals = b.addNever := by
  rw [upstream] at h
  simp only [combine, h]

theorem combine_of_upstream (h : b.upstream signals ≠ []) : b.combine signals =
    (b.addCell ⟨.joint (b.upstream signals),
      (b.upstream signals).findSome? (Cell.causeOf b.cells)⟩).addSignal ⟨some b.cells.length⟩ := by
  rw [upstream] at h ⊢
  unfold combine
  split
  · contradiction
  · rfl

theorem mem_held : n ∈ b.held ↔ ∃ s, some s ∈ b.signals ∧ s.cell = some n := by
  simp only [held, List.mem_filterMap, Option.bind_eq_some_iff]
  exact ⟨fun ⟨_, h, s, hs, hn⟩ => ⟨s, hs ▸ h, hn⟩, fun ⟨s, h, hn⟩ => ⟨_, h, s, rfl, hn⟩⟩

theorem mem_held_of_signal (h : b.signal? i = some s) (hn : s.cell = some n) : n ∈ b.held :=
  mem_held.mpr ⟨s, List.mem_of_getElem? (Option.join_eq_some_iff.mp h), hn⟩

theorem mem_held_of_upstream (h : n ∈ b.upstream signals) : n ∈ b.held := by
  obtain ⟨i, -, hi⟩ := List.mem_filterMap.mp h
  obtain ⟨s, hs, hn⟩ := Option.bind_eq_some_iff.mp hi
  exact mem_held_of_signal hs hn

theorem mem_held_addSignal : n ∈ (b.addSignal s).held ↔ n ∈ b.held ∨ s.cell = some n := by
  simp only [mem_held, addSignal, List.mem_append, List.mem_singleton]
  grind

theorem mem_held_of_drop (h : n ∈ (b.drop i).held) : n ∈ b.held := by
  obtain ⟨s, hs, hn⟩ := mem_held.mp h
  exact mem_held.mpr ⟨s, by simpa using (List.mem_or_eq_of_mem_set hs), hn⟩

theorem relays_of_length_le (h : b.cells.length ≤ n) : b.relays n = [] := by
  have hn : Cell.lookup n b.cells = none := by
    cases hc : Cell.lookup n b.cells with
    | none => rfl
    | some c => exact absurd (Cell.lt_of_lookup hc) (Nat.not_lt.mpr h)
  simp [relays, hn]

theorem mem_relays {r : Relay} : r ∈ b.relays n ↔
    r.joint = n ∧ ∃ c, Cell.lookup n b.cells = some c ∧ r.input ∈ c.awaited := by
  obtain ⟨joint, input⟩ := r
  cases hc : Cell.lookup n b.cells with
  | none => simp [relays, hc]
  | some c => simp [relays, hc, eq_comm, and_left_comm]

theorem strike_expire {c : Cell} {deadline ms : Nat} (hc : Cell.lookup n b.cells = some c)
    (ho : c.origin = .timer deadline ms) :
    b.strike n Cell.expire = b.strike n (Cell.fire (.timeout ms)) := by
  have hcells :
      Cell.update n Cell.expire b.cells = Cell.update n (Cell.fire (.timeout ms)) b.cells :=
    Cell.update_congr fun d hd => by
      cases hc.symm.trans hd
      simp [Cell.expire, ho]
  rw [strike, strike, hcells]

theorem strike_fire_of_cause {cause : Cause} (h : (Cell.causeOf b.cells n).isSome) :
    b.strike n (Cell.fire cause) = b := by
  rw [strike, Cell.update_fire_of_cause h]

theorem mem_sources_of_source (h : b.source? i = some n) : some n ∈ b.sources :=
  List.mem_of_getElem? (Option.join_eq_some_iff.mp h)

end
end Board

namespace Switchboard

inductive Call where
  | source
  | watch (source : Nat)
  | never
  | timeout (ms : Nat)
  | clone (signal : Nat)
  | combine (signals : List Nat)
  | fire (source : Nat) (cause : Cause)
  | tick (ms : Nat)
  | expire (cell : Nat)
  | drop (signal : Nat)
  | dropSource (source : Nat)
  deriving DecidableEq, Repr

/-- A call, a step of a task, or the end of one that has been aborted. -/
inductive Act where
  | call (call : Call)
  | forward (relay : Relay)
  | release (relay : Relay)
  deriving DecidableEq, Repr

end Switchboard

structure Switchboard where
  board : Board
  relays : List Relay
  deriving DecidableEq, Repr

namespace Switchboard

def empty : Switchboard := ⟨.empty, []⟩

def causeOf (s : Switchboard) (n : Nat) : Option Cause := Cell.causeOf s.board.cells n

/-- Somebody holds a signal of the cell, or a task does. -/
def Alive (s : Switchboard) (n : Nat) : Prop :=
  n ∈ s.board.held ∨ ∃ r ∈ s.relays, r.input = n

instance (s : Switchboard) (n : Nat) : Decidable (s.Alive n) :=
  inferInstanceAs (Decidable (_ ∨ _))

/-- The task can go on. Those of a joint cell without signals have been aborted. -/
def Ready (s : Switchboard) (r : Relay) : Prop :=
  r ∈ s.relays ∧ s.Alive r.joint ∧ ((s.causeOf r.input).isSome ∨ (s.causeOf r.joint).isSome)

instance (s : Switchboard) (r : Relay) : Decidable (s.Ready r) :=
  inferInstanceAs (Decidable (_ ∧ _ ∧ _))

/-- No task can go on. -/
def Quiet (s : Switchboard) : Prop := ∀ r, ¬ s.Ready r

def call (s : Switchboard) : Call → Switchboard
  | .source => { s with board := s.board.addSource }
  | .watch i => { s with board := s.board.watchSource i }
  | .never => { s with board := s.board.addNever }
  | .timeout ms =>
    let b := s.board.addCell ⟨.timer (s.board.now + ms) ms, none⟩
    { s with board := b.addSignal ⟨some s.board.cells.length⟩ }
  | .clone i => { s with board := s.board.clone i }
  | .combine signals =>
    let b := s.board.combine signals
    ⟨b, s.relays ++ b.relays s.board.cells.length⟩
  | .fire i cause =>
    (s.board.source? i).elim s fun n => { s with board := s.board.strike n (Cell.fire cause) }
  | .tick ms => { s with board := { s.board with now := s.board.now + ms } }
  | .expire n =>
    -- A timer without signals has been stopped, but nobody can tell whether it fires.
    if ∃ timer ∈ Cell.due s.board.now s.board.cells, timer.2 = n then
      { s with board := s.board.strike n Cell.expire }
    else s
  | .drop i => { s with board := s.board.drop i }
  | .dropSource i => { s with board := s.board.dropSource i }

def act (s : Switchboard) : Act → Switchboard
  | .call c => s.call c
  | .forward r =>
    if s.Ready r then
      ⟨(s.causeOf r.input).elim s.board fun cause => s.board.strike r.joint (Cell.fire cause),
        s.relays.erase r⟩
    else s
  | .release r => if s.Alive r.joint then s else { s with relays := s.relays.erase r }

def run (s : Switchboard) (acts : List Act) : Switchboard := acts.foldl act s

section Steps

variable {s t : Switchboard} {c : Call} {r : Relay} {n i : Nat} {inputs : List Nat} {cause : Cause}

theorem causeOf_strike {relays : List Relay} (h : n < s.board.cells.length) :
    causeOf ⟨s.board.strike n (Cell.fire cause), relays⟩ n = some ((s.causeOf n).getD cause) :=
  Cell.causeOf_update_fire h

theorem causeOf_strike_of_ne {relays : List Relay} (h : i ≠ n) :
    causeOf ⟨s.board.strike n (Cell.fire cause), relays⟩ i = s.causeOf i :=
  Cell.causeOf_update_of_ne h

structure Sound (s : Switchboard) : Prop where
  derived : Cell.Derived s.board.cells
  held : ∀ n ∈ s.board.held, n < s.board.cells.length
  sources : ∀ n, some n ∈ s.board.sources → Cell.Leaf s.board.cells n
  relays : ∀ r ∈ s.relays, ∃ inputs, Cell.Joins s.board.cells r.joint inputs ∧ r.input ∈ inputs
  waiting : ∀ n inputs, s.Alive n → Cell.Joins s.board.cells n inputs → s.causeOf n = none →
    ∀ i ∈ inputs, ⟨n, i⟩ ∈ s.relays

inductive Called (s : Switchboard) : Switchboard → Prop where
  | signals {b : Board} (cells : b.cells = s.board.cells)
      (held : ∀ n ∈ b.held, n ∈ s.board.held ∨ Cell.Leaf s.board.cells n)
      (sources : ∀ n, some n ∈ b.sources → some n ∈ s.board.sources) :
      Called s ⟨b, s.relays⟩
  | leaf {b : Board} {origin : CellOrigin} (cells : b.cells = ⟨origin, none⟩ :: s.board.cells)
      (leaf : ∀ inputs, origin ≠ .joint inputs)
      (held : ∀ n ∈ b.held, n ∈ s.board.held ∨ n = s.board.cells.length)
      (sources : ∀ n, some n ∈ b.sources → some n ∈ s.board.sources ∨ n = s.board.cells.length) :
      Called s ⟨b, s.relays⟩
  | joint {b : Board} {inputs : List Nat} (upstream : ∀ i ∈ inputs, i ∈ s.board.held)
      (cells : b.cells =
        ⟨.joint inputs, inputs.findSome? (Cell.causeOf s.board.cells)⟩ :: s.board.cells)
      (held : ∀ n ∈ b.held, n ∈ s.board.held ∨ n = s.board.cells.length)
      (sources : b.sources = s.board.sources) :
      Called s ⟨b, s.relays ++ b.relays s.board.cells.length⟩
  | fires {n : Nat} {cause : Cause} (leaf : Cell.Leaf s.board.cells n) :
      Called s ⟨s.board.strike n (Cell.fire cause), s.relays⟩

theorem called_call (h : s.Sound) (c : Call) : s.Called (s.call c) := by
  cases c with
  | source =>
    refine .leaf rfl nofun (fun n => .inl) fun n hn => ?_
    simpa [Board.addSource] using hn
  | watch i =>
    refine .signals rfl (fun n hn => ?_) fun n => id
    refine (Board.mem_held_addSignal.mp hn).imp_right fun hi => ?_
    exact h.sources n (Board.mem_sources_of_source hi)
  | never =>
    exact .signals rfl (fun n hn => .inl ((Board.mem_held_addSignal.mp hn).resolve_right nofun))
      fun n => id
  | timeout ms =>
    refine .leaf rfl nofun (fun n hn => ?_) fun n => .inl
    exact (Board.mem_held_addSignal.mp hn).imp_right fun hn => (Option.some.inj hn).symm
  | clone i =>
    refine .signals rfl (fun n hn => ?_) fun n => id
    refine .inl ((Board.mem_held_addSignal.mp hn).elim id fun hi => ?_)
    cases hs : s.board.signal? i with
    | none => simp [hs] at hi
    | some signal => exact Board.mem_held_of_signal hs (by simpa [hs] using hi)
  | combine signals =>
    by_cases hu : s.board.upstream signals = []
    · simp only [call, Board.combine_of_never hu]
      have hlt : s.board.addNever.cells.length ≤ s.board.cells.length := Nat.le_refl _
      rw [Board.relays_of_length_le hlt, List.append_nil]
      exact .signals rfl
        (fun n hn => .inl ((Board.mem_held_addSignal.mp hn).resolve_right nofun)) fun n => id
    · simp only [call, Board.combine_of_upstream hu]
      refine .joint (fun i => Board.mem_held_of_upstream) rfl (fun n hn => ?_) rfl
      exact (Board.mem_held_addSignal.mp hn).imp_right fun hn => (Option.some.inj hn).symm
  | fire i cause =>
    cases hi : s.board.source? i with
    | none => simpa [call, hi] using .signals rfl (fun n => .inl) fun n => id
    | some n =>
      simpa [call, hi] using .fires (h.sources n (Board.mem_sources_of_source hi))
  | tick ms => exact .signals rfl (fun n => .inl) fun n => id
  | expire n =>
    simp only [call]
    split
    · next hdue =>
      obtain ⟨⟨deadline, _⟩, hdue, rfl⟩ := hdue
      obtain ⟨ms, hc, -⟩ := Cell.mem_due.mp hdue
      rw [Board.strike_expire hc rfl]
      exact .fires ⟨_, hc, nofun⟩
    · exact .signals rfl (fun n => .inl) fun n => id
  | drop i => exact .signals rfl (fun n hn => .inl (Board.mem_held_of_drop hn)) fun n => id
  | dropSource i =>
    refine .signals rfl (fun n => .inl) fun n hn => ?_
    simpa using List.mem_or_eq_of_mem_set hn

theorem Called.stirs (h : s.Sound) (hc : s.Called t) :
    Cell.Stirs s.board.cells t.board.cells := by
  cases hc with
  | signals cells => exact cells ▸ .rests
  | leaf cells leaf => exact cells ▸ .leaf leaf
  | joint upstream cells => exact cells ▸ .joint fun i hi => h.held i (upstream i hi)
  | fires leaf => exact .fires leaf

theorem Called.alive (hc : s.Called t) (ht : t.Alive n) :
    s.Alive n ∨ n = s.board.cells.length ∨ Cell.Leaf s.board.cells n := by
  cases hc with
  | signals cells held =>
    rcases ht with hn | hr
    · exact (held n hn).imp .inl .inr
    · exact .inl (.inr hr)
  | leaf cells leaf held =>
    rcases ht with hn | hr
    · exact (held n hn).imp .inl .inl
    · exact .inl (.inr hr)
  | joint upstream cells held =>
    rcases ht with hn | ⟨r, hr, rfl⟩
    · exact (held n hn).imp .inl .inl
    · rcases List.mem_append.mp hr with hr | hr
      · exact .inl (.inr ⟨r, hr, rfl⟩)
      · obtain ⟨-, c, hc, hi⟩ := Board.mem_relays.mp hr
        rw [cells, Cell.lookup_cons_length] at hc
        obtain ⟨inputs, ho, hi, -⟩ := Cell.of_mem_awaited hi
        cases hc
        cases ho
        exact .inl (.inl (upstream _ hi))
  | fires leaf => exact .inl ht

theorem Called.causeOf (hc : s.Called t) (hn : n < s.board.cells.length)
    (hl : ¬ Cell.Leaf s.board.cells n) : t.causeOf n = s.causeOf n := by
  cases hc with
  | signals cells => simp only [Switchboard.causeOf, cells]
  | leaf cells leaf | joint upstream cells =>
    simp only [Switchboard.causeOf, cells, Cell.causeOf_cons_of_lt hn]
  | fires leaf => exact causeOf_strike_of_ne fun he => hl (he ▸ leaf)

theorem Called.relays (hc : s.Called t) : t.relays = s.relays ∨
    t.relays = s.relays ++ t.board.relays s.board.cells.length := by
  cases hc with
  | signals | leaf | fires => exact .inl rfl
  | joint => exact .inr rfl

theorem Called.relays_of_joins (hc : s.Called t) (hn : s.board.cells.length ≤ n)
    (hj : Cell.Joins t.board.cells n inputs) : t.relays = s.relays ++ t.board.relays n := by
  have hno : ¬ Cell.Joins s.board.cells n inputs := fun h => Nat.not_lt.mpr hn h.lt
  cases hc with
  | signals cells => exact absurd (cells ▸ hj) hno
  | leaf cells leaf =>
    rcases Cell.joins_cons.mp (cells ▸ hj) with ⟨-, ho⟩ | hj
    · exact absurd ho (leaf _)
    · exact absurd hj hno
  | joint upstream cells =>
    rcases Cell.joins_cons.mp (cells ▸ hj) with ⟨rfl, -⟩ | hj
    · rfl
    · exact absurd hj hno
  | fires leaf => exact absurd (Cell.joins_update_fire.mp hj) hno

theorem Sound.called (h : s.Sound) (hc : s.Called t) : t.Sound where
  derived := (hc.stirs h).derived h.derived
  held n hn := by
    cases hc with
    | signals cells held => exact cells ▸ (held n hn).elim (h.held n) Cell.Leaf.lt
    | leaf cells leaf held | joint upstream cells held =>
      rw [cells, List.length_cons, Nat.lt_succ_iff_lt_or_eq]
      exact (held n hn).imp_left (h.held n)
    | fires leaf => simpa [Board.strike] using h.held n hn
  sources n hn := by
    have grows := (hc.stirs h).grows
    cases hc with
    | signals cells held sources => exact grows.leaf (h.sources n (sources n hn))
    | leaf cells leaf held sources =>
      rcases sources n hn with hn | rfl
      · exact grows.leaf (h.sources n hn)
      · exact ⟨_, cells ▸ Cell.lookup_cons_length, leaf⟩
    | joint upstream cells held sources => exact grows.leaf (h.sources n (sources ▸ hn))
    | fires leaf => exact grows.leaf (h.sources n hn)
  relays r hr := by
    have grows := (hc.stirs h).grows
    rcases hc.relays with he | he <;> rw [he] at hr
    · obtain ⟨inputs, hj, hi⟩ := h.relays r hr
      exact ⟨inputs, grows.joins hj, hi⟩
    · rcases List.mem_append.mp hr with hr | hr
      · obtain ⟨inputs, hj, hi⟩ := h.relays r hr
        exact ⟨inputs, grows.joins hj, hi⟩
      · obtain ⟨hn, c, hcell, hi⟩ := Board.mem_relays.mp hr
        obtain ⟨inputs, ho, hi, -⟩ := Cell.of_mem_awaited hi
        exact ⟨inputs, ⟨c, hn ▸ hcell, ho⟩, hi⟩
  waiting n inputs ht hj hnone i hi := by
    have grows := (hc.stirs h).grows
    by_cases hlt : n < s.board.cells.length
    · have hs := grows.joins_of_lt hlt hj
      have halive : s.Alive n :=
        (hc.alive ht).resolve_right (not_or.mpr ⟨Nat.ne_of_lt hlt, hs.not_leaf⟩)
      have hr := h.waiting n inputs halive hs (grows.causeOf_eq_none hnone) i hi
      rcases hc.relays with he | he <;> simp [he, hr]
    · rw [hc.relays_of_joins (Nat.not_lt.mp hlt) hj]
      obtain ⟨c, hcell, ho⟩ := hj
      have hawaited := Cell.awaited_of_joint ho ((Cell.causeOf_of_lookup hcell).symm.trans hnone)
      exact List.mem_append_right _ (Board.mem_relays.mpr ⟨rfl, c, hcell, hawaited ▸ hi⟩)

inductive Worked (s : Switchboard) : Switchboard → Prop where
  | rests : Worked s s
  | passes {r : Relay} {cause : Cause} (ready : s.Ready r)
      (found : s.causeOf r.input = some cause) :
      Worked s ⟨s.board.strike r.joint (Cell.fire cause), s.relays.erase r⟩
  | ends {r : Relay} (ready : s.Ready r) (fired : (s.causeOf r.joint).isSome) :
      Worked s ⟨s.board, s.relays.erase r⟩
  | stops {r : Relay} (dead : ¬ s.Alive r.joint) : Worked s ⟨s.board, s.relays.erase r⟩

theorem forward_ne_call (r : Relay) : ∀ c, Act.forward r ≠ .call c := nofun

theorem release_ne_call (r : Relay) : ∀ c, Act.release r ≠ .call c := nofun

theorem worked_act {a : Act} (ha : ∀ c, a ≠ .call c) : s.Worked (s.act a) := by
  cases a with
  | call c => exact absurd rfl (ha c)
  | forward r =>
    simp only [act]
    split
    · next ready =>
      cases found : s.causeOf r.input with
      | none => exact .ends ready (by simpa [found] using ready.2.2)
      | some cause => exact .passes ready found
    · exact .rests
  | release r =>
    simp only [act]
    split
    · exact .rests
    · next dead => exact .stops dead

theorem Worked.stirs (h : s.Sound) (hw : s.Worked t) :
    Cell.Stirs s.board.cells t.board.cells := by
  cases hw with
  | rests | ends | stops => exact .rests
  | passes ready found =>
    obtain ⟨inputs, hj, hi⟩ := h.relays _ ready.1
    exact .passes hj hi found

theorem Worked.length (hw : s.Worked t) : t.board.cells.length = s.board.cells.length := by
  cases hw with
  | rests | ends | stops => rfl
  | passes => simp [Board.strike]

theorem Worked.signals (hw : s.Worked t) : t.board.signals = s.board.signals := by
  cases hw <;> rfl

theorem Worked.held (hw : s.Worked t) : t.board.held = s.board.held := by
  rw [Board.held, hw.signals, Board.held]

theorem Worked.sources (hw : s.Worked t) : t.board.sources = s.board.sources := by
  cases hw <;> rfl

theorem Worked.relays (hw : s.Worked t) (hr : r ∈ t.relays) : r ∈ s.relays := by
  cases hw with
  | rests => exact hr
  | passes | ends | stops => exact List.mem_of_mem_erase hr

theorem Worked.alive (hw : s.Worked t) (ht : t.Alive n) : s.Alive n := by
  rcases ht with hn | ⟨r, hr, hn⟩
  · exact .inl (hw.held ▸ hn)
  · exact .inr ⟨r, hw.relays hr, hn⟩

theorem Worked.mem_relays (h : s.Sound) (hw : s.Worked t) (hr : r ∈ s.relays)
    (halive : s.Alive r.joint) (hnone : t.causeOf r.joint = none) : r ∈ t.relays := by
  have hs : s.causeOf r.joint = none := (hw.stirs h).grows.causeOf_eq_none hnone
  have hne {r' : Relay} (hne : r' ≠ r) : r ∈ s.relays.erase r' :=
    (List.mem_erase_of_ne (Ne.symm hne)).mpr hr
  cases hw with
  | rests => exact hr
  | passes ready found =>
    refine hne fun he => ?_
    obtain ⟨inputs, hj, -⟩ := h.relays r hr
    subst he
    simp [causeOf_strike hj.lt] at hnone
  | ends ready fired => exact hne fun he => by simp [he, hs] at fired
  | stops dead => exact hne fun he => dead (he ▸ halive)

theorem Sound.worked (h : s.Sound) (hw : s.Worked t) : t.Sound where
  derived := (hw.stirs h).derived h.derived
  held n hn := hw.length ▸ h.held n (hw.held ▸ hn)
  sources n hn := (hw.stirs h).grows.leaf (h.sources n (hw.sources ▸ hn))
  relays r hr := by
    obtain ⟨inputs, hj, hi⟩ := h.relays r (hw.relays hr)
    exact ⟨inputs, (hw.stirs h).grows.joins hj, hi⟩
  waiting n inputs ht hj hnone i hi := by
    have grows := (hw.stirs h).grows
    have hs := grows.joins_of_lt (hw.length ▸ hj.lt) hj
    have hr := h.waiting n inputs (hw.alive ht) hs (grows.causeOf_eq_none hnone) i hi
    exact hw.mem_relays h hr (hw.alive ht) hnone

theorem called_or_worked (h : s.Sound) (a : Act) : s.Called (s.act a) ∨ s.Worked (s.act a) := by
  cases a with
  | call c => exact .inl (called_call h c)
  | forward r => exact .inr (worked_act (forward_ne_call r))
  | release r => exact .inr (worked_act (release_ne_call r))

theorem Sound.act (h : s.Sound) (a : Act) : (s.act a).Sound :=
  (called_or_worked h a).elim h.called h.worked

theorem Sound.stirs (h : s.Sound) (a : Act) :
    Cell.Stirs s.board.cells (s.act a).board.cells :=
  (called_or_worked h a).elim (fun hc => hc.stirs h) fun hw => hw.stirs h

theorem sound_empty : empty.Sound where
  derived := ⟨fun h => absurd h.lt (Nat.not_lt_zero _), fun h => absurd h.lt (Nat.not_lt_zero _)⟩
  held := nofun
  sources := nofun
  relays := nofun
  waiting _ _ _ h := absurd h.lt (Nat.not_lt_zero _)

end Steps

section Runs

variable {s : Switchboard} {n : Nat} {cause : Cause}

@[simp] theorem run_nil (s : Switchboard) : s.run [] = s := rfl

@[simp] theorem run_cons (s : Switchboard) (a : Act) (acts : List Act) :
    s.run (a :: acts) = (s.act a).run acts := rfl

theorem run_append (s : Switchboard) (xs ys : List Act) : s.run (xs ++ ys) = (s.run xs).run ys :=
  List.foldl_append

theorem Sound.run (h : s.Sound) (acts : List Act) : (s.run acts).Sound := by
  induction acts generalizing s with
  | nil => exact h
  | cons a acts ih => exact ih (h.act a)

theorem Sound.grows (h : s.Sound) (acts : List Act) :
    Cell.Grows s.board.cells (s.run acts).board.cells := by
  induction acts generalizing s with
  | nil => exact .refl _
  | cons a acts ih => exact (h.stirs a).grows.trans (ih (h.act a))

theorem exists_first {P : Switchboard → Prop} {acts : List Act} (h : P (s.run acts))
    (hs : ¬ P s) : ∃ xs a ys, acts = xs ++ a :: ys ∧ ¬ P (s.run xs) ∧ P ((s.run xs).act a) := by
  induction acts generalizing s with
  | nil => exact absurd h hs
  | cons a acts ih =>
    by_cases ha : P (s.act a)
    · exact ⟨[], a, acts, rfl, hs, ha⟩
    · obtain ⟨xs, b, ys, rfl, hxs, hb⟩ := ih h ha
      exact ⟨a :: xs, b, ys, rfl, hxs, hb⟩

end Runs
end Switchboard
end HttpClient
