import HttpClient.Fields
import HttpClient.Proofs.Text.Words
set_option autoImplicit false

namespace HttpClient

variable {c d : Char} {s : String}

theorem ne_of_isTokenChar (hc : isTokenChar c = true) (hd : isTokenChar d = false) : c ≠ d := by
  rintro rfl
  rw [hc] at hd
  cases hd

theorem range_of_isTokenChar (h : isTokenChar c = true) : 33 ≤ c.toNat ∧ c.toNat ≤ 126 := by
  rw [isTokenChar, Bool.or_eq_true] at h
  rcases h with halnum | hmark
  · rw [Text.isAlphanum_iff] at halnum
    omega
  · have hall : "!#$%&'*+-.^_\x60|~".toList.all (fun m => 33 ≤ m.toNat ∧ m.toNat ≤ 126) = true := by
      decide
    exact of_decide_eq_true (List.all_eq_true.1 hall c (by simpa using hmark))

theorem isBlank_of_isTokenChar (h : isTokenChar c = true) : Text.isBlank c = false := by
  obtain ⟨hlow, hhigh⟩ := range_of_isTokenChar h
  simp [Text.isBlank]
  omega

theorem isValueChar_of_isTokenChar (h : isTokenChar c = true) : isValueChar c = true := by
  obtain ⟨hlow, hhigh⟩ := range_of_isTokenChar h
  simp [isValueChar]
  omega

theorem isTokenChar_of_mem (hs : isToken s = true) (hc : c ∈ s.toList) : isTokenChar c = true := by
  rw [isToken, Bool.and_eq_true, List.all_eq_true] at hs
  exact hs.2 c hc

theorem not_mem_of_isToken (hs : isToken s = true) (hc : isTokenChar c = false) : c ∉ s.toList :=
  fun hm => ne_of_isTokenChar (isTokenChar_of_mem hs hm) hc rfl

theorem not_mem_of_isValue (hs : isValue s = true) (hc : isValueChar c = false) :
    c ∉ s.toList := by
  intro hm
  rw [isValue, List.all_eq_true] at hs
  rw [hs c hm] at hc
  cases hc

theorem isTokenChar_toLower (h : isTokenChar c = true) : isTokenChar c.toLower = true := by
  by_cases hupper : 65 ≤ c.toNat ∧ c.toNat ≤ 90
  · have hval : c.toLower.toNat = c.toNat + 32 := by rw [Text.toNat_toLower, if_pos hupper]
    have halnum : c.toLower.isAlphanum = true := Text.isAlphanum_iff.2 (by omega)
    rw [isTokenChar, halnum, Bool.true_or]
  · have hsame : c.toLower = c := Char.toNat_inj.1 (by rw [Text.toNat_toLower, if_neg hupper])
    rwa [hsame]

theorem isToken_lower (h : isToken s = true) : isToken (Text.lower s) = true := by
  simp only [isToken, Text.lower, String.toList_ofList, Bool.and_eq_true, Bool.not_eq_true',
    List.isEmpty_eq_false_iff, List.all_eq_true, List.mem_map] at h ⊢
  refine ⟨by simpa using h.1, ?_⟩
  rintro _ ⟨c, hc, rfl⟩
  exact isTokenChar_toLower (h.2 c hc)

theorem isTokenChar_of_toLower (h : isTokenChar c.toLower = true) : isTokenChar c = true := by
  by_cases hupper : 65 ≤ c.toNat ∧ c.toNat ≤ 90
  · have halnum : c.isAlphanum = true := Text.isAlphanum_iff.2 (.inl (.inl hupper))
    rw [isTokenChar, halnum, Bool.true_or]
  · have hsame : c.toLower = c := Char.toNat_inj.1 (by rw [Text.toNat_toLower, if_neg hupper])
    rwa [← hsame]

theorem isToken_of_lower (h : isToken (Text.lower s) = true) : isToken s = true := by
  simp only [isToken, Text.lower, String.toList_ofList, Bool.and_eq_true, Bool.not_eq_true',
    List.isEmpty_eq_false_iff, List.all_eq_true, List.mem_map] at h ⊢
  exact ⟨by simpa using h.1, fun c hc => isTokenChar_of_toLower (h.2 _ ⟨c, hc, rfl⟩)⟩

theorem isToken_of_sameWord {t : String} (hst : Text.sameWord s t = true)
    (hs : isToken s = true) : isToken t = true := by
  have hlower : Text.lower s = Text.lower t := congrArg String.ofList (eq_of_beq hst)
  exact isToken_of_lower (hlower ▸ isToken_lower hs)

end HttpClient
