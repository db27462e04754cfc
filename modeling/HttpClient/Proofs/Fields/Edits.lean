import HttpClient.Proofs.Fields.Tokens
import HttpClient.Proofs.Fields.Values
set_option autoImplicit false

/-!
Lists of fields as multimaps. Setting a name leaves one field of it, where the first one was;
removing a name counts what it takes away; filling in takes all values of a name or none. An edit in
place that fails has changed nothing.
-/

namespace HttpClient

namespace Fields

variable {h h' : Fields} {m n value : String} {before after : List Field} {f : Field}

theorem values_congr (h : Fields) (hmn : Text.sameWord m n = true) : h.values m = h.values n := by
  have hnamed : (fun f : Field => f.named m) = fun f => f.named n :=
    funext fun f => f.named_congr hmn
  simp only [values, hnamed]

theorem exists_first (hc : h.contains n = true) :
    ∃ before f after, h.entries = before ++ f :: after ∧ (∀ g ∈ before, g.named n = false) ∧
      f.named n = true := by
  obtain ⟨f, hf⟩ := Option.isSome_iff_exists.1 (List.find?_isSome.2 (List.any_eq_true.1 hc))
  obtain ⟨hnamed, before, after, hentries, hbefore⟩ := List.find?_eq_some_iff_append.1 hf
  exact ⟨before, f, after, hentries, by simpa using hbefore, hnamed⟩

section First

variable (first : ∀ g ∈ before, g.named n = false) (named : f.named n = true)

include first named

theorem replaceFirst_append : replaceFirst n value (before ++ f :: after) =
    before ++ ⟨f.name, value⟩ :: after.filter fun g => !g.named n := by
  induction before with
  | nil => simp [replaceFirst, named]
  | cons g before ih =>
    obtain ⟨hg, hrest⟩ := List.forall_mem_cons.1 first
    simp [replaceFirst, hg, ih hrest]

theorem findIdx_append : (before ++ f :: after).findIdx (·.named n) = before.length := by
  induction before with
  | nil => simp [List.findIdx_cons, named]
  | cons g before ih =>
    obtain ⟨hg, hrest⟩ := List.forall_mem_cons.1 first
    simp [List.findIdx_cons, hg, ih hrest]

theorem findIdx?_append : (before ++ f :: after).findIdx? (·.named n) = some before.length := by
  have hlt : before.length < (before ++ f :: after).length := by simp
  rw [List.findIdx?_eq_some_iff_findIdx_eq]
  exact ⟨hlt, findIdx_append first named⟩

end First

inductive SetAt (n value : String) : Fields → Fields → Prop where
  | replaced {before after : List Field} {f : Field} (first : ∀ g ∈ before, g.named n = false)
      (named : f.named n = true) :
      SetAt n value ⟨before ++ f :: after⟩
        ⟨before ++ ⟨f.name, value⟩ :: after.filter fun g => !g.named n⟩
  | added {h : Fields} (absent : ∀ g ∈ h.entries, g.named n = false) :
      SetAt n value h (h.push ⟨n, value⟩)

theorem setAt_of_set (hs : h.set n value = .ok h') : SetAt n value h h' := by
  have he := eq_of_set hs
  cases hc : h.contains n with
  | true =>
    obtain ⟨before, f, after, hentries, first, named⟩ := exists_first hc
    rw [hc, if_pos rfl, hentries, replaceFirst_append first named] at he
    obtain rfl : h = ⟨before ++ f :: after⟩ := congrArg Fields.mk hentries
    exact he ▸ .replaced first named
  | false =>
    rw [hc, if_neg Bool.false_ne_true] at he
    rw [contains, List.any_eq_false] at hc
    exact he ▸ .added (by simpa using hc)

/-- Of a name there is one field with the value, in the place of the first that there was, or else
at the end; the fields of other names are what they were. -/
structure HoldsOne (n value : String) (h h' : Fields) : Prop where
  values : h'.values n = [value]
  place : h'.entries.findIdx (·.named n) = h.entries.findIdx (·.named n)
  before : h'.entries.take (h.entries.findIdx (·.named n)) =
    h.entries.take (h.entries.findIdx (·.named n))
  others : (h'.entries.filter fun f => !f.named n) = h.entries.filter fun f => !f.named n

theorem holdsOne_of_set (hs : h.set n value = .ok h') : HoldsOne n value h h' := by
  have hvalues := values_of_set hs
  have hothers := congrArg entries (without_of_set hs)
  cases setAt_of_set hs with
  | @replaced before after f first named =>
    have hnew : Field.named n ⟨f.name, value⟩ = true := named
    refine ⟨hvalues, ?_, ?_, hothers⟩
    · rw [findIdx_append first named, findIdx_append first hnew]
    · rw [findIdx_append first named, List.take_left, List.take_left]
  | added absent =>
    have hself : Field.named n ⟨n, value⟩ = true := Text.sameWord_refl n
    have hend : h.entries.findIdx (·.named n) = h.entries.length :=
      List.findIdx_eq_length.2 (by simpa using absent)
    refine ⟨hvalues, ?_, ?_, hothers⟩
    · rw [hend]
      exact findIdx_append absent hself
    · rw [hend, push, List.take_left, List.take_length]

theorem set_again (hs : h.set n value = .ok h') (hnm : Text.sameWord n m = true) :
    h'.set m value = .ok h' := by
  have hnamed (f : Field) : f.named m = f.named n := (f.named_congr hnm).symm
  have valid : Field.check ⟨m, value⟩ = .ok () := by
    have hvalid := valid_of_set hs
    exact (Field.check_eq_ok_iff _).2 ⟨isToken_of_sameWord hnm hvalid.1, hvalid.2⟩
  have hset : h'.contains m = true ∧ replaceFirst m value h'.entries = h'.entries := by
    cases setAt_of_set hs with
    | @replaced before after f first named =>
      have hnew : Field.named m ⟨f.name, value⟩ = true := (hnamed f).trans named
      refine ⟨by simp [contains, hnew], ?_⟩
      rw [replaceFirst_append (fun g hg => (hnamed g).trans (first g hg)) hnew]
      simp [hnamed, List.filter_filter]
    | added absent =>
      have hself : Field.named m ⟨n, value⟩ = true := hnm
      refine ⟨by simp [contains, push, hself], ?_⟩
      exact replaceFirst_append (fun g hg => (hnamed g).trans (absent g hg)) hself
  simp only [set, valid, hset.1, if_true, hset.2, bind, Except.bind, pure, Except.pure]

theorem remove_counts (h : Fields) (n : String) : (h.remove n).1 = (h.values n).length := by
  have hsplit := List.length_eq_length_filter_add (l := h.entries) (·.named n)
  simp only [remove, count, without, values, List.length_map]
  omega

theorem mergeMissing_again (h other : Fields) :
    (h.mergeMissing other).mergeMissing other = h.mergeMissing other := by
  have hnone : (other.entries.filter fun f => !(h.mergeMissing other).contains f.name) = [] := by
    rw [List.filter_eq_nil_iff]
    intro f hf
    have hown : other.contains f.name = true :=
      List.any_eq_true.2 ⟨f, hf, Text.sameWord_refl f.name⟩
    rw [contains_mergeMissing, hown, Bool.or_true]
    decide
  rw [mergeMissing, hnone, List.append_nil]

end Fields

/-- An edit of a list in place. What it has done before it fails is not undone. -/
abbrev Edit := EStateM HeadError Fields

namespace Edit

def check (f : Field) : Edit Unit :=
  match f.check with
  | .ok _ => pure ()
  | .error error => throw error

def append (name value : String) : Edit Unit := do
  check ⟨name, value⟩
  modify (·.push ⟨name, value⟩)

def setIfAbsent (name value : String) : Edit Unit := do
  if (← get).contains name then return
  append name value

def assign (place : Nat) (value : String) (h : Fields) : Fields :=
  ⟨h.entries.modify place fun f => { f with value := value }⟩

/-- Of the fields of a name only those up to a place stay. -/
def retainUpTo (place : Nat) (name : String) (h : Fields) : Fields :=
  ⟨(h.entries.zipIdx.filter fun (f, i) => i ≤ place || !f.named name).map (·.1)⟩

def set (name value : String) : Edit Unit := do
  check ⟨name, value⟩
  match (← get).entries.findIdx? (·.named name) with
  | some place =>
    modify (assign place value)
    modify (retainUpTo place name)
  | none => modify (·.push ⟨name, value⟩)

def outcome (h : Fields) : Except HeadError Fields → EStateM.Result HeadError Fields Unit
  | .ok h' => .ok () h'
  | .error error => .error error h

theorem append_run (h : Fields) (n value : String) :
    (append n value).run h = outcome h (h.append n value) := by
  unfold append check Fields.append
  cases Field.check ⟨n, value⟩ <;> rfl

theorem setIfAbsent_run (h : Fields) (n value : String) :
    (setIfAbsent n value).run h = outcome h (h.setIfAbsent n value) := by
  have hrun : (setIfAbsent n value).run h =
      (if h.contains n then pure () else append n value : Edit Unit).run h := rfl
  rw [hrun, Fields.setIfAbsent]
  split
  · rfl
  · exact append_run h n value

theorem assign_append (before after : List Field) (f : Field) (value : String) :
    assign before.length value ⟨before ++ f :: after⟩ = ⟨before ++ ⟨f.name, value⟩ :: after⟩ := by
  refine congrArg Fields.mk ?_
  induction before with
  | nil => rfl
  | cons g before ih => exact congrArg (g :: ·) ih

theorem retainUpTo_append (before after : List Field) (f : Field) (n : String) :
    retainUpTo before.length n ⟨before ++ f :: after⟩ =
      ⟨before ++ f :: after.filter fun g => !g.named n⟩ := by
  have hfront : ((before ++ [f]).zipIdx.filter fun (f, i) => i ≤ before.length || !f.named n) =
      (before ++ [f]).zipIdx := by
    refine List.filter_eq_self.2 fun (g, i) hm => ?_
    have hi := (List.mem_zipIdx hm).2.1
    rw [List.length_append, List.length_singleton] at hi
    simp
    omega
  have hback : ((after.zipIdx (before.length + 1)).filter fun (f, i) =>
      i ≤ before.length || !f.named n) =
      (after.zipIdx (before.length + 1)).filter ((fun g => !g.named n) ∘ Prod.fst) := by
    refine List.filter_congr fun (g, i) hm => ?_
    have hi := (List.mem_zipIdx hm).1
    have hlater : decide (i ≤ before.length) = false := decide_eq_false (by omega)
    simp [hlater]
  have hsplit : before ++ f :: after = (before ++ [f]) ++ after := by simp
  have hlength : 0 + (before ++ [f]).length = before.length + 1 := by simp
  rw [retainUpTo, hsplit, List.zipIdx_append, List.filter_append, hlength, hfront, hback,
    List.map_append, List.zipIdx_map_fst, ← List.filter_map, List.zipIdx_map_fst]
  simp

theorem set_run (h : Fields) (n value : String) :
    (set n value).run h = outcome h (h.set n value) := by
  cases hcheck : Field.check ⟨n, value⟩ with
  | error error =>
    have hfails : h.set n value = .error error := by
      simp only [Fields.set, hcheck, bind, Except.bind]
    simp [set, check, hcheck, hfails, outcome]
  | ok _ =>
    have hset : h.set n value = .ok
        (if h.contains n then ⟨Fields.replaceFirst n value h.entries⟩ else h.push ⟨n, value⟩) := by
      simp only [Fields.set, hcheck, bind, Except.bind, pure, Except.pure]
      split <;> rfl
    cases hc : h.contains n with
    | true =>
      obtain ⟨before, f, after, hentries, first, named⟩ := Fields.exists_first hc
      obtain rfl : h = ⟨before ++ f :: after⟩ := congrArg Fields.mk hentries
      have hplace : (before ++ f :: after).findIdx? (·.named n) = some before.length :=
        Fields.findIdx?_append first named
      have hedited :
          retainUpTo before.length n (assign before.length value ⟨before ++ f :: after⟩) =
            ⟨Fields.replaceFirst n value (before ++ f :: after)⟩ := by
        rw [assign_append, retainUpTo_append, Fields.replaceFirst_append first named]
      rw [hset, hc, if_pos rfl]
      simp [set, check, hcheck, outcome, hplace, hedited]
    | false =>
      have hplace : h.entries.findIdx? (·.named n) = none := by
        rw [List.findIdx?_eq_none_iff]
        simpa [Fields.contains] using hc
      rw [hset, hc, if_neg Bool.false_ne_true]
      simp [set, check, hcheck, outcome, hplace]

end Edit

namespace Fields

theorem HoldsOne.congr {h h' : Fields} {m n value : String} (holds : HoldsOne n value h h')
    (hnm : Text.sameWord n m = true) : HoldsOne m value h h' := by
  have hnamed (f : Field) : f.named m = f.named n := (f.named_congr hnm).symm
  refine ⟨?_, ?_, ?_, ?_⟩
  · rw [← values_congr h' hnm, holds.values]
  · simpa only [hnamed] using holds.place
  · simpa only [hnamed] using holds.before
  · simpa only [hnamed] using holds.others

/-- What holds of lists of fields as multimaps, where `m` and `n` are one name but for the letter
case. -/
theorem multimap_laws (h other : Fields) {m n : String} (value : String)
    (hnm : Text.sameWord n m = true) :
    ((Edit.append n value).run h = Edit.outcome h (h.append n value) ∧
      (Edit.set n value).run h = Edit.outcome h (h.set n value) ∧
      (Edit.setIfAbsent n value).run h = Edit.outcome h (h.setIfAbsent n value)) ∧
    (∀ h', h.set n value = .ok h' → HoldsOne m value h h' ∧ h'.set m value = .ok h') ∧
    ((h.remove n).1 = (h.values m).length ∧ (h.remove n).2.values m = [] ∧
      (h.remove n).2.entries = h.entries.filter fun f => !f.named m) ∧
    (h.mergeMissing other).values n = (if h.values m = [] then other.values m else h.values m) ∧
    h.entries <+: (h.mergeMissing other).entries ∧
    (h.mergeMissing other).mergeMissing other = h.mergeMissing other := by
  have edits := And.intro (Edit.append_run h n value)
    (And.intro (Edit.set_run h n value) (Edit.setIfAbsent_run h n value))
  have sets (h' : Fields) (hs : h.set n value = .ok h') :
      HoldsOne m value h h' ∧ h'.set m value = .ok h' :=
    ⟨(holdsOne_of_set hs).congr hnm, set_again hs hnm⟩
  refine ⟨edits, sets, ⟨?_, ?_, ?_⟩, ?_, List.prefix_append .., mergeMissing_again h other⟩
  · rw [remove_counts, values_congr h hnm]
  · rw [remove, values_without, if_pos hnm]
  · simp only [remove, without, Field.named_congr _ hnm]
  · rw [values_mergeMissing, values_congr h hnm, values_congr other hnm]
    have habsent := h.values_eq_nil_iff n
    rw [values_congr h hnm] at habsent
    cases hc : h.contains n <;> simp [habsent, hc]

/-- Cookies under three spellings of one name, between other fields. -/
def cookies : Fields :=
  ⟨[⟨"Accept", "*/*"⟩, ⟨"Set-Cookie", "a=1"⟩, ⟨"set-cookie", "b=2"⟩, ⟨"Host", "h.example"⟩,
    ⟨"SET-COOKIE", "c=3"⟩]⟩

theorem multimap_laws_cookies :
    Text.sameWord "set-Cookie" "Set-cookie" = true ∧
    (∃ h', cookies.set "set-Cookie" "d=4" = .ok h' ∧ HoldsOne "Set-cookie" "d=4" cookies h') ∧
    (cookies.remove "set-Cookie").1 = (cookies.values "Set-cookie").length := by
  have hsame : Text.sameWord "set-Cookie" "Set-cookie" = true := by decide
  have laws := multimap_laws cookies .empty "d=4" hsame
  have valid : Field.Valid ⟨"set-Cookie", "d=4"⟩ := ⟨by decide, by decide⟩
  obtain ⟨h', hs⟩ := exists_set cookies valid
  exact ⟨hsame, ⟨h', hs, (laws.2.1 h' hs).1⟩, laws.2.2.1.1⟩

end Fields
end HttpClient
