import HttpClient.Text.Blank
import Mathlib.Data.List.Basic
set_option autoImplicit false

namespace HttpClient.Text

variable {p : Char → Bool} {sep : Char} {cs front back : List Char}

theorem strip_padded {α : Type} {p : α → Bool} {before xs after : List α}
    (hb : ∀ x ∈ before, p x = true) (ha : ∀ x ∈ after, p x = true)
    (hhead : ∀ x, xs.head? = some x → p x = false)
    (hlast : ∀ x, xs.getLast? = some x → p x = false) :
    (((before ++ xs ++ after).dropWhile p).reverse.dropWhile p).reverse = xs := by
  have drop : ∀ ys : List α, (∀ y, ys.head? = some y → p y = false) → ys.dropWhile p = ys := by
    intro ys hys
    cases ys with
    | nil => rfl
    | cons y ys => exact List.dropWhile_cons_of_neg (by simp [hys y rfl])
  rw [List.append_assoc, List.dropWhile_append_of_pos hb]
  cases xs with
  | nil =>
    have hnil : (after ++ []).dropWhile p = [] := List.dropWhile_append_of_pos ha
    rw [List.append_nil] at hnil
    simp [hnil]
  | cons x xs =>
    have hfront : (x :: xs ++ after).dropWhile p = x :: xs ++ after :=
      drop _ fun y hy => hhead y (by simpa using hy)
    have hback : (x :: xs).reverse.dropWhile p = (x :: xs).reverse :=
      drop _ fun y hy => hlast y (by rwa [List.head?_reverse] at hy)
    rw [hfront, List.reverse_append, List.dropWhile_append_of_pos (by simpa using ha), hback,
      List.reverse_reverse]

theorem trimBy_of_all (h : ∀ c ∈ cs, p c = false) : trimBy p cs = cs := by
  have hnone : ∀ c ∈ ([] : List Char), p c = true := by simp
  simpa [trimBy] using strip_padded hnone hnone (fun c hc => h c (List.mem_of_head? hc))
    fun c hc => h c (List.mem_of_getLast? hc)

theorem trimBy_cons {c : Char} (h : p c = true) (cs : List Char) :
    trimBy p (c :: cs) = trimBy p cs := by
  rw [trimBy, trimBy, List.dropWhile_cons_of_pos h]

theorem splitFirst_append (hf : sep ∉ front) (back : List Char) :
    splitFirst sep (front ++ sep :: back) = (front, some back) := by
  induction front with
  | nil => simp [splitFirst]
  | cons c front ih =>
    rw [List.mem_cons, not_or] at hf
    simp [splitFirst, Ne.symm hf.1, ih hf.2]

theorem splitFirst_of_not_mem (h : sep ∉ cs) : splitFirst sep cs = (cs, none) := by
  induction cs with
  | nil => rfl
  | cons c cs ih =>
    rw [List.mem_cons, not_or] at h
    simp [splitFirst, Ne.symm h.1, ih h.2]

theorem splitOn_of_not_mem (h : sep ∉ cs) : splitOn sep cs = [cs] := by
  induction cs with
  | nil => rfl
  | cons c cs ih =>
    rw [List.mem_cons, not_or] at h
    simp [splitOn, Ne.symm h.1, ih h.2]

theorem splitOn_append (sep : Char) (front back : List Char) :
    splitOn sep (front ++ sep :: back) = splitOn sep front ++ splitOn sep back := by
  induction front with
  | nil => simp [splitOn]
  | cons c front ih =>
    simp only [List.cons_append, splitOn, ih]
    split
    · rfl
    · cases hf : splitOn sep front with
      | nil => exact absurd hf (splitOn_ne_nil sep front)
      | cons part parts => rfl

theorem splitOn_intercalate {parts : List (List Char)} (h : parts ≠ []) :
    splitOn sep ([sep].intercalate parts) = parts.flatMap (splitOn sep) := by
  induction parts with
  | nil => exact absurd rfl h
  | cons part parts ih =>
    cases parts with
    | nil => simp [List.intercalate]
    | cons next parts =>
      rw [List.intercalate_cons_cons, List.append_assoc, List.singleton_append, splitOn_append,
        ih (by simp)]
      rfl

theorem forall_mem_intercalate {α : Type} {p : α → Prop} {separator : List α}
    {parts : List (List α)} (hs : ∀ x ∈ separator, p x) (hp : ∀ part ∈ parts, ∀ x ∈ part, p x) :
    ∀ x ∈ separator.intercalate parts, p x := by
  induction parts with
  | nil => simp [List.intercalate]
  | cons part parts ih =>
    obtain ⟨hpart, hparts⟩ := List.forall_mem_cons.1 hp
    cases parts with
    | nil => simpa [List.intercalate] using hpart
    | cons next parts =>
      rw [List.intercalate_cons_cons]
      exact List.forall_mem_append.2 ⟨List.forall_mem_append.2 ⟨hpart, hs⟩, ih hparts⟩

theorem not_mem_intercalate {α : Type} {x : α} {separator : List α} {parts : List (List α)}
    (hs : x ∉ separator) (hp : ∀ part ∈ parts, x ∉ part) : x ∉ separator.intercalate parts := by
  have hne : ∀ {l : List α}, x ∉ l → ∀ y ∈ l, y ≠ x := fun h y hy he => h (he ▸ hy)
  intro hm
  exact forall_mem_intercalate (hne hs) (fun part hpart => hne (hp part hpart)) x hm rfl

theorem isAlphanum_iff {c : Char} : c.isAlphanum = true ↔
    (65 ≤ c.toNat ∧ c.toNat ≤ 90 ∨ 97 ≤ c.toNat ∧ c.toNat ≤ 122) ∨
      48 ≤ c.toNat ∧ c.toNat ≤ 57 := by
  change (decide ('A'.val ≤ c.val ∧ c.val ≤ 'Z'.val) ||
    (decide ('a'.val ≤ c.val) && decide (c.val ≤ 'z'.val)) ||
    (decide ('0'.val ≤ c.val) && decide (c.val ≤ '9'.val))) = true ↔ _
  simp only [Bool.or_eq_true, Bool.and_eq_true, decide_eq_true_eq]
  exact Iff.rfl

theorem toNat_toLower (c : Char) :
    c.toLower.toNat = if 65 ≤ c.toNat ∧ c.toNat ≤ 90 then c.toNat + 32 else c.toNat := by
  by_cases h : 'A'.val ≤ c.val ∧ c.val ≤ 'Z'.val
  · have hlow : 65 ≤ c.toNat := h.1
    have hhigh : c.toNat ≤ 90 := h.2
    have hval : c.toLower.val = c.val + 32 := congrArg Char.val (dif_pos h)
    have hsum : (c.val + 32).toNat = (c.toNat + 32) % 4294967296 := UInt32.toNat_add c.val 32
    rw [if_pos ⟨hlow, hhigh⟩, ← Char.toNat_val, hval, hsum]
    omega
  · have hsame : c.toLower = c := dif_neg h
    have hout : ¬(65 ≤ c.toNat ∧ c.toNat ≤ 90) := h
    rw [if_neg hout, hsame]

theorem toLower_toLower (c : Char) : c.toLower.toLower = c.toLower := by
  refine Char.toNat_inj.1 ?_
  grind [toNat_toLower]

theorem sameWord_lower (s t : String) : sameWord (lower s) t = sameWord s t := by
  simp only [sameWord, lower, String.toList_ofList, List.map_map, Function.comp_def,
    toLower_toLower]

theorem lower_lower (s : String) : lower (lower s) = lower s := by
  simp only [lower, String.toList_ofList, List.map_map, Function.comp_def, toLower_toLower]

end HttpClient.Text
