import HttpClient.Signal
set_option autoImplicit false

/-!
Cells that know where their causes come from. Whatever is done to them one at a time, they keep
their causes, and the cause of a joint cell is that of a source or a timer below it.
-/

namespace HttpClient
namespace Cell

variable {cells later older newer : List Cell} {c : Cell} {n m i : Nat}
  {inputs : List Nat} {cause : Cause} {f g : Cell → Cell}

section Access

theorem lookup_cons :
    lookup n (c :: older) = if n = older.length then some c else lookup n older := by
  simp only [lookup, eq_comm]

@[simp] theorem lookup_cons_length : lookup older.length (c :: older) = some c := by
  simp [lookup]

theorem lookup_cons_of_lt (h : n < older.length) : lookup n (c :: older) = lookup n older := by
  rw [lookup_cons, if_neg (Nat.ne_of_lt h)]

theorem lt_of_lookup (h : lookup n cells = some c) : n < cells.length := by
  induction cells with
  | nil => cases h
  | cons d older ih =>
    rw [lookup_cons] at h
    split at h
    · simp [*]
    · exact Nat.lt_succ_of_lt (ih h)

theorem exists_lookup (h : n < cells.length) : ∃ c, lookup n cells = some c := by
  induction cells with
  | nil => cases h
  | cons d older ih =>
    rw [lookup_cons]
    split
    · exact ⟨d, rfl⟩
    · next hn => exact ih (by simp only [List.length_cons] at h; omega)

theorem lookup_append_of_lt (h : n < older.length) :
    lookup n (newer ++ older) = lookup n older := by
  induction newer with
  | nil => rfl
  | cons d newer ih =>
    rw [List.cons_append, lookup_cons_of_lt (by simp only [List.length_append]; omega), ih]

@[simp] theorem length_update : (update n f cells).length = cells.length := by
  induction cells with
  | nil => rfl
  | cons d older ih => simp only [update]; split <;> simp [ih]

theorem lookup_update :
    lookup m (update n f cells) = if m = n then (lookup n cells).map f else lookup m cells := by
  induction cells with
  | nil => simp [update, lookup]
  | cons d older ih =>
    by_cases hn : older.length = n
    · subst hn
      by_cases hm : m = older.length <;> simp [update, lookup_cons, hm]
    · simp only [update, if_neg hn, lookup_cons, length_update, ih]
      by_cases hm : m = n
      · simp [hm, Ne.symm hn]
      · simp [hm]

theorem update_congr (h : ∀ c, lookup n cells = some c → f c = g c) :
    update n f cells = update n g cells := by
  induction cells with
  | nil => rfl
  | cons d older ih =>
    simp only [update]
    split
    · next hn => rw [h d (by rw [lookup_cons, if_pos hn.symm])]
    · next hn =>
      refine congrArg _ (ih fun c hc => h c ?_)
      rw [lookup_cons_of_lt (lt_of_lookup hc), hc]

theorem update_id : update n id cells = cells := by
  induction cells with
  | nil => rfl
  | cons d older ih => simp only [update, ih]; split <;> rfl

theorem update_append :
    update older.length f (newer ++ c :: older) = newer ++ f c :: older := by
  induction newer with
  | nil => simp [update]
  | cons d newer ih =>
    have hn : (newer ++ c :: older).length ≠ older.length := by simp; omega
    simp only [List.cons_append, update, if_neg hn, ih]

theorem fire_of_cause (h : c.cause.isSome) : c.fire cause = c := by
  cases c with
  | mk origin first => cases first with
    | none => cases h
    | some first => rfl

theorem update_fire_of_cause (h : (causeOf cells n).isSome) :
    update n (fire cause) cells = cells := by
  refine (update_congr fun c hc => fire_of_cause ?_).trans update_id
  simpa [causeOf, hc] using h

theorem causeOf_of_lookup (h : lookup n cells = some c) : causeOf cells n = c.cause := by
  simp [causeOf, h]

theorem lt_of_causeOf (h : causeOf cells n = some cause) : n < cells.length := by
  obtain ⟨c, hc, -⟩ := Option.bind_eq_some_iff.mp h
  exact lt_of_lookup hc

theorem causeOf_cons_of_lt (h : n < older.length) : causeOf (c :: older) n = causeOf older n := by
  rw [causeOf, lookup_cons_of_lt h, causeOf]

theorem causeOf_update_of_ne (h : m ≠ n) : causeOf (update n f cells) m = causeOf cells m := by
  simp [causeOf, lookup_update, h]

theorem causeOf_update_fire (h : n < cells.length) :
    causeOf (update n (fire cause) cells) n = some ((causeOf cells n).getD cause) := by
  obtain ⟨c, hc⟩ := exists_lookup h
  cases hs : c.cause <;> simp [causeOf, lookup_update, hc, fire, hs]

theorem awaited_of_joint (ho : c.origin = .joint inputs) (hc : c.cause = none) :
    c.awaited = inputs := by
  cases c
  simp_all [awaited]

theorem of_mem_awaited (h : i ∈ c.awaited) :
    ∃ inputs, c.origin = .joint inputs ∧ i ∈ inputs ∧ c.cause = none := by
  unfold awaited at h
  split at h
  · next inputs ho hc => exact ⟨inputs, ho, h, hc⟩
  · cases h

theorem mem_due {now deadline : Nat} : (deadline, n) ∈ due now cells ↔
    ∃ ms, lookup n cells = some ⟨.timer deadline ms, none⟩ ∧ deadline ≤ now := by
  induction cells with
  | nil => simp [due, lookup]
  | cons d older ih =>
    have hlt : (deadline, n) ∈ due now older → n ≠ older.length := fun h => by
      obtain ⟨ms, hc, -⟩ := ih.mp h
      exact Nat.ne_of_lt (lt_of_lookup hc)
    obtain ⟨_ | _ | _, _ | _⟩ := d <;> grind [due, lookup_cons]

end Access

section Sources

def Joins (cells : List Cell) (n : Nat) (inputs : List Nat) : Prop :=
  ∃ c, lookup n cells = some c ∧ c.origin = .joint inputs

def Leaf (cells : List Cell) (n : Nat) : Prop :=
  ∃ c, lookup n cells = some c ∧ ∀ inputs, c.origin ≠ .joint inputs

/-- A source or a timer from which joint cells lead to a cell. -/
inductive Feeds (cells : List Cell) : Nat → Nat → Prop where
  | leaf {n : Nat} (leaf : Leaf cells n) : Feeds cells n n
  | input {leaf n i : Nat} {inputs : List Nat} (joins : Joins cells n inputs) (mem : i ∈ inputs)
      (feeds : Feeds cells leaf i) : Feeds cells leaf n

theorem Joins.unique {others : List Nat} (h : Joins cells n inputs) (h' : Joins cells n others) :
    inputs = others := by
  obtain ⟨c, hc, ho⟩ := h
  obtain ⟨d, hd, ho'⟩ := h'
  simp_all

theorem Joins.not_leaf (h : Joins cells n inputs) : ¬ Leaf cells n := by
  rintro ⟨d, hd, ho'⟩
  obtain ⟨c, hc, ho⟩ := h
  simp_all

theorem Joins.lt (h : Joins cells n inputs) : n < cells.length := by
  obtain ⟨c, hc, -⟩ := h
  exact lt_of_lookup hc

theorem Leaf.lt (h : Leaf cells n) : n < cells.length := by
  obtain ⟨c, hc, -⟩ := h
  exact lt_of_lookup hc

/-- Every cell of the one list is in the other, with its origin and with its cause. -/
def Grows (cells later : List Cell) : Prop :=
  ∀ n c, lookup n cells = some c →
    ∃ d, lookup n later = some d ∧ d.origin = c.origin ∧
      ∀ cause, c.cause = some cause → d.cause = some cause

theorem Grows.refl (cells : List Cell) : Grows cells cells := fun _ c h => ⟨c, h, rfl, fun _ => id⟩

theorem Grows.trans {last : List Cell} (h : Grows cells later) (h' : Grows later last) :
    Grows cells last := by
  intro n c hc
  obtain ⟨d, hd, ho, hs⟩ := h n c hc
  obtain ⟨e, he, ho', hs'⟩ := h' n d hd
  exact ⟨e, he, ho'.trans ho, fun cause hcause => hs' cause (hs cause hcause)⟩

theorem Grows.causeOf (h : Grows cells later) (hc : causeOf cells n = some cause) :
    Cell.causeOf later n = some cause := by
  obtain ⟨c, hn, hc⟩ := Option.bind_eq_some_iff.mp hc
  obtain ⟨d, hd, -, hs⟩ := h n c hn
  rw [causeOf_of_lookup hd, hs cause hc]

theorem Grows.joins (h : Grows cells later) (hj : Joins cells n inputs) :
    Joins later n inputs := by
  obtain ⟨c, hc, ho⟩ := hj
  obtain ⟨d, hd, ho', -⟩ := h n c hc
  exact ⟨d, hd, ho'.trans ho⟩

theorem Grows.joins_of_lt (h : Grows cells later) (hn : n < cells.length)
    (hj : Joins later n inputs) : Joins cells n inputs := by
  obtain ⟨c, hc⟩ := exists_lookup hn
  obtain ⟨d, hd, ho', -⟩ := h n c hc
  obtain ⟨e, he, ho⟩ := hj
  exact ⟨c, hc, by simp_all⟩

theorem Grows.leaf (h : Grows cells later) (hl : Leaf cells n) : Leaf later n := by
  obtain ⟨c, hc, ho⟩ := hl
  obtain ⟨d, hd, ho', -⟩ := h n c hc
  exact ⟨d, hd, ho' ▸ ho⟩

theorem Grows.causeOf_eq_none (h : Grows cells later) (hc : Cell.causeOf later n = none) :
    Cell.causeOf cells n = none :=
  Option.eq_none_iff_forall_not_mem.mpr fun cause hs => by
    simpa [hc] using (h.causeOf hs).symm

/-- Inputs are older than what they lead to, and a joint cell has the cause of an input. -/
structure Derived (cells : List Cell) : Prop where
  older : ∀ {n inputs i}, Joins cells n inputs → i ∈ inputs → i < n
  taken : ∀ {n inputs cause}, Joins cells n inputs → causeOf cells n = some cause →
    ∃ i ∈ inputs, causeOf cells i = some cause

theorem Derived.exists_leaf (h : Derived cells) (hc : causeOf cells n = some cause) :
    ∃ leaf, Feeds cells leaf n ∧ causeOf cells leaf = some cause := by
  induction n using Nat.strongRecOn with
  | _ n ih =>
    obtain ⟨c, hn⟩ := exists_lookup (lt_of_causeOf hc)
    by_cases ho : ∃ inputs, c.origin = .joint inputs
    · obtain ⟨inputs, ho⟩ := ho
      obtain ⟨i, hi, hci⟩ := h.taken ⟨c, hn, ho⟩ hc
      obtain ⟨leaf, feeds, hleaf⟩ := ih i (h.older ⟨c, hn, ho⟩ hi) hci
      exact ⟨leaf, .input ⟨c, hn, ho⟩ hi feeds, hleaf⟩
    · exact ⟨n, .leaf ⟨c, hn, not_exists.mp ho⟩, hc⟩

end Sources

section Stirs

inductive Stirs (cells : List Cell) : List Cell → Prop where
  | rests : Stirs cells cells
  | leaf {origin : CellOrigin} (leaf : ∀ inputs, origin ≠ .joint inputs) :
      Stirs cells (⟨origin, none⟩ :: cells)
  | joint {inputs : List Nat} (older : ∀ i ∈ inputs, i < cells.length) :
      Stirs cells (⟨.joint inputs, inputs.findSome? (causeOf cells)⟩ :: cells)
  | fires {n : Nat} {cause : Cause} (leaf : Leaf cells n) :
      Stirs cells (update n (fire cause) cells)
  | passes {n i : Nat} {inputs : List Nat} {cause : Cause} (joins : Joins cells n inputs)
      (mem : i ∈ inputs) (found : causeOf cells i = some cause) :
      Stirs cells (update n (fire cause) cells)

theorem grows_cons : Grows cells (c :: cells) := fun n d h =>
  ⟨d, by rw [lookup_cons_of_lt (lt_of_lookup h), h], rfl, fun _ => id⟩

theorem grows_update_fire : Grows cells (update n (fire cause) cells) := by
  intro m d hd
  rw [lookup_update]
  split
  · next hm =>
    subst hm
    exact ⟨d.fire cause, by simp [hd], rfl, fun first => cause_fire_of_cause⟩
  · exact ⟨d, hd, rfl, fun _ => id⟩

theorem Stirs.grows (h : Stirs cells later) : Grows cells later := by
  cases h with
  | rests => exact .refl cells
  | leaf | joint => exact grows_cons
  | fires | passes => exact grows_update_fire

theorem joins_cons : Joins (c :: cells) n inputs ↔
    (n = cells.length ∧ c.origin = .joint inputs) ∨ Joins cells n inputs := by
  simp only [Joins, lookup_cons]
  by_cases hn : n = cells.length
  · have hno : ¬ Joins cells n inputs := fun h => Nat.ne_of_lt h.lt hn
    simp only [Joins] at hno
    simp [hn, hn ▸ hno]
  · simp [hn]

theorem joins_update_fire : Joins (update m (fire cause) cells) n inputs ↔ Joins cells n inputs :=
  ⟨fun h => grows_update_fire.joins_of_lt (by simpa using h.lt) h, grows_update_fire.joins⟩

theorem derived_cons (h : Derived cells)
    (older : ∀ inputs, c.origin = .joint inputs → ∀ i ∈ inputs, i < cells.length)
    (taken : ∀ inputs cause, c.origin = .joint inputs → c.cause = some cause →
      ∃ i ∈ inputs, causeOf cells i = some cause) : Derived (c :: cells) where
  older {n inputs i} hj hi := by
    rcases joins_cons.mp hj with ⟨rfl, ho⟩ | hj
    · exact older inputs ho i hi
    · exact h.older hj hi
  taken {n inputs cause} hj hc := by
    rcases joins_cons.mp hj with ⟨rfl, ho⟩ | hj
    · obtain ⟨i, hi, hci⟩ := taken inputs cause ho (by simpa [causeOf] using hc)
      exact ⟨i, hi, grows_cons.causeOf hci⟩
    · rw [causeOf_cons_of_lt hj.lt] at hc
      obtain ⟨i, hi, hci⟩ := h.taken hj hc
      exact ⟨i, hi, grows_cons.causeOf hci⟩

theorem derived_update_fire (h : Derived cells)
    (taken : ∀ inputs, Joins cells n inputs → ∃ i ∈ inputs, causeOf cells i = some cause) :
    Derived (update n (fire cause) cells) where
  older hj hi := h.older (joins_update_fire.mp hj) hi
  taken {m inputs later} hj hc := by
    replace hj := joins_update_fire.mp hj
    obtain ⟨i, hi, hci⟩ : ∃ i ∈ inputs, causeOf cells i = some later := by
      by_cases hm : m = n
      · subst hm
        rw [causeOf_update_fire hj.lt] at hc
        cases hs : causeOf cells m with
        | none => simpa [← hc, hs] using taken inputs hj
        | some first => exact h.taken hj (by simpa [hs] using hc)
      · exact h.taken hj (causeOf_update_of_ne hm ▸ hc)
    exact ⟨i, hi, grows_update_fire.causeOf hci⟩

theorem Stirs.derived (h : Stirs cells later) (hd : Derived cells) : Derived later := by
  cases h with
  | rests => exact hd
  | leaf leaf => exact derived_cons hd (fun _ h => absurd h (leaf _)) fun _ _ h => absurd h (leaf _)
  | joint older =>
    refine derived_cons hd (fun others h => ?_) fun others cause h hc => ?_ <;> cases h
    · exact older
    · exact List.exists_of_findSome?_eq_some hc
  | fires leaf => exact derived_update_fire hd fun _ hj => absurd leaf hj.not_leaf
  | passes joins mem found =>
    exact derived_update_fire hd fun others hj => ⟨_, joins.unique hj ▸ mem, found⟩

end Stirs
end Cell
end HttpClient
