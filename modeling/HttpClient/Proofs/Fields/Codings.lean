import HttpClient.Answer
import HttpClient.Proofs.Fields.Tokens
import HttpClient.Proofs.Fields.Values
import Mathlib.Data.List.Forall2
set_option autoImplicit false

/-!
The codings that the fields of a message list, and the fields that are left when some of them have
been undone.
-/

namespace HttpClient
namespace ContentCoding

/-- The word is a token that names the coding, in any letter case. -/
def Names (word : String) (c : ContentCoding) : Prop :=
  isToken word = true ∧
    match c with
    | .gzip => Text.sameWord word "gzip" = true ∨ Text.sameWord word "x-gzip" = true
    | .deflate => Text.sameWord word "deflate" = true
    | .identity => Text.sameWord word "identity" = true
    | .other name => name = Text.lower word ∧
      ∀ known ∈ ["gzip", "x-gzip", "deflate", "identity"], Text.sameWord word known = false

/-- The Content-Encoding fields list these codings, in the order in which they were applied. Empty
elements do not count. -/
def Listed (h : Fields) (codings : List ContentCoding) : Prop :=
  List.Forall₂ Names ((h.elements "Content-Encoding").filter fun e => !e.toList.isEmpty) codings

section Names

variable {word known : String} {c : ContentCoding}

theorem lower_eq_iff (h : Text.lower known = known) :
    Text.lower word = known ↔ Text.sameWord word known = true := by
  have hknown : known.toList.map Char.toLower = known.toList := by
    rw [← String.toList_ofList (l := known.toList.map Char.toLower)]
    exact congrArg String.toList h
  rw [Text.sameWord, beq_iff_eq, hknown, Text.lower, ← String.toList_inj, String.toList_ofList]

theorem read_of_names (h : Names word c) : read word = .ok c := by
  obtain ⟨htoken, hname⟩ := h
  rw [read, if_pos htoken]
  refine congrArg Except.ok ?_
  cases c with
  | gzip =>
    rcases hname with hname | hname
    · rw [(lower_eq_iff (by decide)).2 hname]
      decide
    · rw [(lower_eq_iff (by decide)).2 hname]
      decide
  | deflate =>
    rw [(lower_eq_iff (by decide)).2 hname]
    decide
  | identity =>
    rw [(lower_eq_iff (by decide)).2 hname]
    decide
  | other name =>
    obtain ⟨rfl, hknown⟩ := hname
    have hne (known : String) (hk : known ∈ ["gzip", "x-gzip", "deflate", "identity"])
        (hl : Text.lower known = known) : Text.lower word ≠ known := by
      intro heq
      rw [lower_eq_iff hl, hknown known hk] at heq
      cases heq
    simp only [ofLower, hne "gzip" (by simp) (by decide), hne "x-gzip" (by simp) (by decide),
      hne "deflate" (by simp) (by decide), hne "identity" (by simp) (by decide), or_self, if_false]

theorem names_name (h : Names word c) : Names c.name c := by
  cases c with
  | gzip => exact ⟨by decide, .inl (by decide)⟩
  | deflate => exact ⟨by decide, by decide⟩
  | identity => exact ⟨by decide, by decide⟩
  | other name =>
    obtain ⟨htoken, rfl, hknown⟩ := h
    refine ⟨isToken_lower htoken, (Text.lower_lower word).symm, fun known hk => ?_⟩
    exact (Text.sameWord_lower word known).trans (hknown known hk)

end Names

theorem names_of_words {words : List String} {codings : List ContentCoding}
    (h : List.Forall₂ Names words codings) : ∀ c ∈ codings, Names c.name c := by
  induction h with
  | nil => simp
  | cons hname _ ih => exact List.forall_mem_cons.2 ⟨names_name hname, ih⟩

theorem mapM_read {words : List String} {codings : List ContentCoding}
    (h : List.Forall₂ Names words codings) : words.mapM read = .ok codings := by
  induction h with
  | nil => rfl
  | cons hname _ ih =>
    rw [List.mapM_cons, read_of_names hname, ih]
    rfl

theorem readElements_of_names {words : List String} {codings : List ContentCoding}
    (h : List.Forall₂ Names (words.filter fun e => !e.toList.isEmpty) codings)
    (hne : codings ≠ []) : readElements words = .ok codings := by
  unfold readElements
  rw [mapM_read h]
  cases codings with
  | nil => exact absurd rfl hne
  | cons c codings => rfl

theorem readList_intercalate {values : List String} (h : values ≠ []) :
    readList (",".intercalate values) = readElements (values.flatMap fun v =>
      (Text.splitOn ',' v.toList).map fun part => String.ofList (Text.trim part)) := by
  have hjoin : (",".intercalate values).toList =
      [','].intercalate (values.map String.toList) := String.toList_intercalate
  rw [readList, hjoin, Text.splitOn_intercalate (by simpa using h), List.flatMap_map,
    List.map_flatMap]

theorem ofFields_of_listed {h : Fields} {codings : List ContentCoding} (hl : Listed h codings)
    (hne : codings ≠ []) : ofFields h = .ok (some codings) := by
  have hvalues : h.values "Content-Encoding" ≠ [] := by
    intro hnil
    rw [Listed, Fields.elements, hnil] at hl
    cases hl
    exact hne rfl
  unfold ofFields
  simp only [List.isEmpty_iff, hvalues, if_false]
  rw [readList_intercalate hvalues, ← Fields.elements, readElements_of_names hl hne]
  rfl

theorem splitOn_commas {part : List Char} {parts : List (List Char)} (hp : ',' ∉ part)
    (hps : ∀ part ∈ parts, ',' ∉ part) :
    Text.splitOn ',' ([',', ' '].intercalate (part :: parts)) =
      part :: parts.map (' ' :: ·) := by
  induction parts generalizing part with
  | nil => simpa [List.intercalate] using Text.splitOn_of_not_mem hp
  | cons next parts ih =>
    obtain ⟨hnext, hrest⟩ := List.forall_mem_cons.1 hps
    have hlater : [',', ' '].intercalate ((' ' :: next) :: parts) =
        ' ' :: [',', ' '].intercalate (next :: parts) := by
      cases parts <;> simp [List.intercalate]
    have hcomma : ',' ∉ ' ' :: next := by simp [hnext]
    have hjoin : [',', ' '].intercalate (part :: next :: parts) =
        part ++ ',' :: ' ' :: [',', ' '].intercalate (next :: parts) := by
      simp [List.intercalate_cons_cons]
    rw [hjoin, Text.splitOn_append, Text.splitOn_of_not_mem hp, ← hlater, ih hcomma hrest]
    rfl

theorem toList_render (codings : List ContentCoding) :
    (render codings).toList = [',', ' '].intercalate (codings.map (·.name.toList)) := by
  rw [render, String.toList_intercalate, List.map_map]
  rfl

theorem isValue_render {codings : List ContentCoding} (h : ∀ c ∈ codings, Names c.name c) :
    isValue (render codings) = true := by
  rw [isValue, List.all_eq_true, toList_render]
  intro x hx
  by_contra hvalue
  refine Text.not_mem_intercalate ?_ ?_ hx
  · intro hm
    have hsep : [',', ' '].all isValueChar = true := by decide
    exact hvalue (List.all_eq_true.1 hsep x hm)
  · intro part hpart hm
    obtain ⟨c, hc, rfl⟩ := List.mem_map.1 hpart
    exact hvalue (isValueChar_of_isTokenChar (isTokenChar_of_mem (h c hc).1 hm))

theorem trim_name {c : ContentCoding} (h : Names c.name c) :
    String.ofList (Text.trim c.name.toList) = c.name := by
  have hblank : ∀ x ∈ c.name.toList, Text.isBlank x = false :=
    fun x hx => isBlank_of_isTokenChar (isTokenChar_of_mem h.1 hx)
  rw [Text.trim, Text.trimBy_of_all hblank, String.ofList_toList]

theorem readList_render {codings : List ContentCoding} (h : ∀ c ∈ codings, Names c.name c)
    (hne : codings ≠ []) : readList (render codings) = .ok codings := by
  have hcomma (c : ContentCoding) (hc : c ∈ codings) : ',' ∉ c.name.toList :=
    not_mem_of_isToken (h c hc).1 (by decide)
  have hwords : ((Text.splitOn ',' (render codings).toList).map fun part =>
      String.ofList (Text.trim part)) = codings.map name := by
    cases codings with
    | nil => exact absurd rfl hne
    | cons c codings =>
      obtain ⟨hc, hcs⟩ := List.forall_mem_cons.1 h
      obtain ⟨hcomma, hcommas⟩ := List.forall_mem_cons.1 hcomma
      rw [toList_render, List.map_cons, splitOn_commas hcomma (by simpa using hcommas),
        List.map_cons, List.map_map, List.map_map, List.map_cons, trim_name hc]
      refine congrArg _ (List.map_congr_left fun d hd => ?_)
      simp only [Function.comp, Text.trim, Text.trimBy_cons (show Text.isBlank ' ' = true from rfl)]
      exact trim_name (hcs d hd)
  rw [readList, hwords]
  refine readElements_of_names ?_ hne
  have hfull : (codings.map name).filter (fun e => !e.toList.isEmpty) = codings.map name := by
    refine List.filter_eq_self.2 ?_
    intro word hword
    obtain ⟨c, hc, rfl⟩ := List.mem_map.1 hword
    exact (Bool.and_eq_true _ _ ▸ (h c hc).1).1
  rw [hfull, List.forall₂_map_left_iff, List.forall₂_same]
  exact h

theorem removable_iff {supported : List ContentCoding} {c : ContentCoding} :
    removable supported c = true ↔ c = .identity ∨ c ∈ supported := by
  simp [removable]

theorem exists_removed (supported codings : List ContentCoding) :
    ∃ removed, codings = (split supported codings).2 ++ removed ∧
      (split supported codings).1 = removed.reverse.filter (· != .identity) ∧
      (∀ c ∈ removed, removable supported c = true) ∧
      ∀ c, (split supported codings).2.getLast? = some c → removable supported c = false := by
  refine ⟨(codings.reverse.takeWhile (removable supported)).reverse, ?_, ?_, ?_, ?_⟩
  · rw [split, ← List.reverse_append, List.takeWhile_append_dropWhile, List.reverse_reverse]
  · rw [split, List.reverse_reverse]
  · intro c hc
    exact List.all_eq_true.1 List.all_takeWhile c (List.mem_reverse.1 hc)
  · intro c hc
    rw [split, List.getLast?_reverse] at hc
    have hkept := List.head?_dropWhile_not (removable supported) codings.reverse
    rwa [hc] at hkept

end ContentCoding
end HttpClient
