import HttpClient.Fields
set_option autoImplicit false

namespace HttpClient

theorem Field.named_congr {m n : String} (f : Field) (h : Text.sameWord m n = true) :
    f.named m = f.named n := by
  have he : m.toList.map Char.toLower = n.toList.map Char.toLower := eq_of_beq h
  simp only [Field.named, Text.sameWord, he]

namespace Fields

variable {h h' : Fields} {m n value : String}

theorem values_eq_nil_iff (h : Fields) (n : String) : h.values n = [] ↔ h.contains n = false := by
  simp [values, contains]

theorem contains_congr (hv : h'.values n = h.values n) : h'.contains n = h.contains n := by
  have hiff : h'.contains n = false ↔ h.contains n = false := by
    rw [← values_eq_nil_iff, hv, values_eq_nil_iff]
  cases hc : h.contains n with
  | false => exact hiff.2 hc
  | true =>
    cases hc' : h'.contains n with
    | false => rw [hiff.1 hc'] at hc; cases hc
    | true => rfl

theorem get?_eq_head? (h : Fields) (n : String) : h.get? n = (h.values n).head? := by
  simp only [get?, values, List.head?_map, List.head?_filter]

theorem values_without (h : Fields) (m n : String) :
    (h.without m).values n = if Text.sameWord m n then [] else h.values n := by
  simp only [values, without, List.filter_filter]
  split
  · next hmn =>
    rw [List.map_eq_nil_iff, List.filter_eq_nil_iff]
    intro f _
    simp [f.named_congr hmn]
  · next hmn =>
    congr 1
    refine List.filter_congr fun f _ => ?_
    cases hn : f.named n with
    | false => rfl
    | true =>
      -- a field of both names would make them the same
      have hm : f.named m = false := by
        rw [Bool.eq_false_iff]
        intro hm
        refine hmn (Text.sameWord_trans ?_ hn)
        rw [Text.sameWord_comm]
        exact hm
      simp [hm]

theorem values_push (h : Fields) (f : Field) (n : String) :
    (h.push f).values n = h.values n ++ if f.named n then [f.value] else [] := by
  by_cases hf : f.named n <;> simp [values, push, hf]

theorem contains_push (h : Fields) (f : Field) (n : String) :
    (h.push f).contains n = (h.contains n || f.named n) := by
  simp [contains, push]

theorem contains_without_self (h : Fields) (n : String) : (h.without n).contains n = false := by
  rw [← values_eq_nil_iff, values_without, if_pos (Text.sameWord_refl n)]

theorem eq_push_of_append (ha : h.append m value = .ok h') : h' = h.push ⟨m, value⟩ := by
  unfold append at ha
  cases hc : Field.check ⟨m, value⟩ with
  | error error =>
    simp only [hc, bind, Except.bind] at ha
    cases ha
  | ok _ =>
    simp only [hc, bind, Except.bind, pure, Except.pure] at ha
    cases ha
    rfl

theorem contains_congr_name (h : Fields) (hmn : Text.sameWord m n = true) :
    h.contains m = h.contains n := by
  have hnamed : (fun f : Field => f.named m) = fun f => f.named n :=
    funext fun f => f.named_congr hmn
  simp only [contains, hnamed]

theorem without_eq_self (hn : h.contains n = false) : h.without n = h := by
  have hkeeps : h.entries.filter (fun f => !f.named n) = h.entries := by
    simpa [contains] using hn
  rw [without, hkeeps]

theorem values_mergeMissing (h other : Fields) (n : String) :
    (h.mergeMissing other).values n = if h.contains n then h.values n else other.values n := by
  have hkept : ∀ f : Field, (f.named n && !h.contains f.name) = (f.named n && !h.contains n) := by
    intro f
    cases hn : f.named n with
    | false => rfl
    | true => rw [h.contains_congr_name hn]
  simp only [values, mergeMissing, List.filter_append, List.filter_filter, hkept, List.map_append]
  cases hn : h.contains n with
  | true => simp
  | false =>
    have hnil : (h.entries.filter (·.named n)).map (·.value) = [] :=
      (values_eq_nil_iff h n).2 hn
    simp [hnil]

theorem contains_mergeMissing (h other : Fields) (n : String) :
    (h.mergeMissing other).contains n = (h.contains n || other.contains n) := by
  have hvalues := h.values_mergeMissing other n
  cases hn : h.contains n with
  | true =>
    rw [hn, if_pos rfl] at hvalues
    rw [contains_congr hvalues, hn, Bool.true_or]
  | false =>
    rw [hn, if_neg Bool.false_ne_true] at hvalues
    rw [contains_congr hvalues, Bool.false_or]

section Filling

variable {pairs : List (String × String)}

theorem eq_of_setIfAbsent (hs : h.setIfAbsent m value = .ok h') :
    h' = if h.contains m then h else h.push ⟨m, value⟩ := by
  unfold setIfAbsent at hs
  split at hs
  · next hm =>
    cases hs
    rw [if_pos hm]
  · next hm => rw [if_neg hm, eq_push_of_append hs]

theorem values_of_foldlM
    (hf : pairs.foldlM (fun h (name, value) => h.setIfAbsent name value) h = .ok h')
    (n : String) : h'.values n = if h.contains n then h.values n
      else ((pairs.find? fun pair => Text.sameWord pair.1 n).map (·.2)).toList := by
  induction pairs generalizing h with
  | nil =>
    cases hf
    cases hn : h'.contains n with
    | true => rfl
    | false => simpa using (values_eq_nil_iff h' n).2 hn
  | cons pair pairs ih =>
    rw [List.foldlM_cons] at hf
    cases hs : h.setIfAbsent pair.1 pair.2 with
    | error error =>
      simp only [hs, bind, Except.bind] at hf
      cases hf
    | ok g =>
      simp only [hs, bind, Except.bind] at hf
      rw [ih hf, eq_of_setIfAbsent hs, List.find?_cons]
      cases hname : Text.sameWord pair.1 n with
      | true =>
        rw [h.contains_congr_name hname]
        cases hn : h.contains n with
        | true => simp [hn]
        | false =>
          simp [contains_push, values_push, Field.named, hname, (values_eq_nil_iff h n).2 hn]
      | false =>
        split
        · rfl
        · simp [contains_push, values_push, Field.named, hname]

theorem prefix_of_foldlM
    (hf : pairs.foldlM (fun h (name, value) => h.setIfAbsent name value) h = .ok h') :
    h.entries <+: h'.entries := by
  induction pairs generalizing h with
  | nil =>
    cases hf
    exact List.prefix_rfl
  | cons pair pairs ih =>
    rw [List.foldlM_cons] at hf
    cases hs : h.setIfAbsent pair.1 pair.2 with
    | error error =>
      simp only [hs, bind, Except.bind] at hf
      cases hf
    | ok g =>
      simp only [hs, bind, Except.bind] at hf
      refine List.IsPrefix.trans ?_ (ih hf)
      rw [eq_of_setIfAbsent hs]
      split
      · exact List.prefix_rfl
      · exact List.prefix_append ..

end Filling

theorem entries_foldl_without (names : List String) (h : Fields) :
    (names.foldl without h).entries = h.entries.filter fun f => !names.any f.named := by
  induction names generalizing h with
  | nil => exact (List.filter_eq_self.2 fun _ _ => rfl).symm
  | cons m names ih =>
    rw [List.foldl_cons, ih, without, List.filter_filter]
    refine List.filter_congr fun f _ => ?_
    rw [List.any_cons, Bool.not_or, Bool.and_comm]

theorem values_foldl_without (names : List String) (h : Fields) (n : String) :
    (names.foldl without h).values n =
      if names.any (Text.sameWord · n) then [] else h.values n := by
  induction names generalizing h with
  | nil => rfl
  | cons m names ih =>
    rw [List.foldl_cons, ih, List.any_cons, values_without]
    cases Text.sameWord m n <;> simp

theorem exists_set (h : Fields) (hv : Field.Valid ⟨m, value⟩) : ∃ h', h.set m value = .ok h' := by
  rw [set, (Field.check_eq_ok_iff _).2 hv]
  simp only [bind, Except.bind, pure, Except.pure]
  split
  · exact ⟨_, rfl⟩
  · exact ⟨_, rfl⟩

theorem valid_of_set (hs : h.set m value = .ok h') : Field.Valid ⟨m, value⟩ := by
  rw [← Field.check_eq_ok_iff]
  cases hc : Field.check ⟨m, value⟩ with
  | ok _ => rfl
  | error error =>
    simp only [set, hc, bind, Except.bind] at hs
    cases hs

theorem eq_of_set (hs : h.set m value = .ok h') :
    h' = if h.contains m then ⟨replaceFirst m value h.entries⟩ else h.push ⟨m, value⟩ := by
  unfold set at hs
  cases hc : Field.check ⟨m, value⟩ with
  | error error =>
    simp only [hc, bind, Except.bind] at hs
    cases hs
  | ok _ =>
    simp only [hc, bind, Except.bind, pure, Except.pure] at hs
    split at hs
    · next hm =>
      cases hs
      rw [if_pos hm]
    · next hm =>
      cases hs
      rw [if_neg hm]

theorem filter_replaceFirst (m value : String) (fs : List Field) :
    (replaceFirst m value fs).filter (fun f => !f.named m) = fs.filter fun f => !f.named m := by
  induction fs with
  | nil => rfl
  | cons f fs ih =>
    cases hf : f.named m with
    | true =>
      have hnew : Field.named m ⟨f.name, value⟩ = true := hf
      simp [replaceFirst, hf, hnew, List.filter_filter]
    | false => simp [replaceFirst, hf, ih]

theorem named_replaceFirst {fs : List Field} (hm : fs.any (·.named m) = true) (value : String) :
    ((replaceFirst m value fs).filter (·.named m)).map (·.value) = [value] := by
  induction fs with
  | nil => cases hm
  | cons f fs ih =>
    cases hf : f.named m with
    | true =>
      have hnew : Field.named m ⟨f.name, value⟩ = true := hf
      simp [replaceFirst, hf, hnew, List.filter_filter]
    | false =>
      rw [List.any_cons, hf, Bool.false_or] at hm
      simp [replaceFirst, hf, ih hm]

theorem values_of_set (hs : h.set m value = .ok h') : h'.values m = [value] := by
  rw [eq_of_set hs]
  split
  · next hm => exact named_replaceFirst hm value
  · next hm =>
    have hnone : h.values m = [] := (values_eq_nil_iff h m).2 (by simpa using hm)
    have hself : Field.named m ⟨m, value⟩ = true := Text.sameWord_refl m
    rw [values_push, hnone, if_pos hself, List.nil_append]

theorem without_of_set (hs : h.set m value = .ok h') : h'.without m = h.without m := by
  rw [eq_of_set hs]
  split
  · simp only [without, filter_replaceFirst]
  · have hself : Field.named m ⟨m, value⟩ = true := Text.sameWord_refl m
    simp [without, push, List.filter_append, hself]

theorem without_without (h : Fields) (m : String) : (h.without m).without m = h.without m := by
  simp [without, List.filter_filter]

end Fields
end HttpClient
