import HttpClient.Framing
import HttpClient.Proofs.Fields.Values
import HttpClient.Proofs.Text.Numerals
import HttpClient.Proofs.Text.Words
set_option autoImplicit false

/-! Which fields a strict reader takes as the framing of a body. -/

namespace HttpClient

namespace Framing

def Says (n : Nat) (value : String) : Prop := Numeral.read? 10 (Text.trim value.toList) = some n

instance (n : Nat) (value : String) : Decidable (Says n value) :=
  inferInstanceAs (Decidable (_ = _))

theorem commonLength_some {m : Nat} {o : Option Nat} {vs : List String}
    (h : commonLength (some m) vs = .ok o) : o = some m := by
  induction vs with
  | nil => exact (Except.ok.inj h).symm
  | cons v vs ih =>
    simp only [commonLength] at h
    repeat' split at h
    · cases h
    · cases h
    · cases h
    · next k _ _ hk =>
      have hk : m = k := by simpa using hk
      subst hk
      exact ih h

theorem commonLength_iff {known : Option Nat} {n : Nat} {vs : List String}
    (hk : ∀ m, known = some m → m = n) : commonLength known vs = .ok (some n) ↔
      (known = some n ∨ vs ≠ []) ∧ ∀ v ∈ vs, Says n v ∧ n ≤ Numeral.wordLimit := by
  unfold Says
  induction vs generalizing known with
  | nil => simp [commonLength]
  | cons v vs ih =>
    have hsome := @ih (some n) (by simp)
    simp only [true_or, true_and] at hsome
    simp only [commonLength, ne_eq, reduceCtorEq, not_false_eq_true, or_true, true_and,
      List.forall_mem_cons]
    cases hr : Numeral.read? 10 (Text.trim v.toList) with
    | none => simp
    | some m =>
      by_cases hm : m = n
      · subst hm
        by_cases hw : Numeral.wordLimit < m
        · simp only [hw, ite_true, reduceCtorEq, false_iff]
          omega
        · have hw' : m ≤ Numeral.wordLimit := by omega
          simp only [hw, ite_false, hw', and_self, true_and]
          cases known with
          | none => simpa only [hw', and_true] using hsome
          | some k =>
            rw [hk k rfl]
            simpa only [ne_eq, not_true_eq_false, ite_false, hw', and_true] using hsome
      · simp only [Option.some.injEq, hm, false_and, iff_false]
        intro h
        split at h
        · cases h
        · cases known with
          | none => exact hm (Option.some.inj (commonLength_some h)).symm
          | some k =>
            rw [hk k rfl] at h
            simp only [Ne.symm hm, not_false_eq_true, ite_true] at h
            cases h

theorem endsChunked_seen {es : List String} : endsChunked true false es ≠ .ok true := by
  induction es with
  | nil => simp [endsChunked]
  | cons e es ih =>
    simp only [endsChunked, ite_true]
    repeat' split
    · simp
    · simp
    · exact ih

/-- A list of codings that ends with chunked, and has it nowhere else. -/
def EndsOnce (es : List String) : Prop :=
  ∃ front last, es = front ++ [last] ∧ Text.sameWord last "chunked" = true ∧
    ∀ e ∈ front, e.toList ≠ [] ∧ Text.sameWord e "chunked" = false

theorem endsOnce_cons {e : String} {es : List String} :
    EndsOnce (e :: es) ↔ es = [] ∧ Text.sameWord e "chunked" = true ∨
      e.toList ≠ [] ∧ Text.sameWord e "chunked" = false ∧ EndsOnce es := by
  constructor
  · rintro ⟨front, last, he, hlast, hfront⟩
    cases front with
    | nil =>
      cases he
      exact .inl ⟨rfl, hlast⟩
    | cons f front =>
      cases he
      obtain ⟨hf, hw⟩ := hfront e List.mem_cons_self
      exact .inr ⟨hf, hw, front, last, rfl, hlast, fun g hg =>
        hfront g (List.mem_cons_of_mem e hg)⟩
  · rintro (⟨rfl, he⟩ | ⟨hne, hw, front, last, rfl, hlast, hfront⟩)
    · exact ⟨[], e, rfl, he, by simp⟩
    · refine ⟨e :: front, last, rfl, hlast, fun g hg => ?_⟩
      rcases List.mem_cons.1 hg with rfl | hg
      · exact ⟨hne, hw⟩
      · exact hfront g hg

theorem endsChunked_iff {es : List String} :
    endsChunked false false es = .ok true ↔ EndsOnce es := by
  induction es with
  | nil => simp [endsChunked, EndsOnce]
  | cons e es ih =>
    rw [endsOnce_cons]
    simp only [endsChunked]
    by_cases hempty : e.toList = []
    · have hw : Text.sameWord e "chunked" = false := by simp [Text.sameWord, hempty]
      simp [hempty, hw]
    · have hempty' : e.toList.isEmpty = false := by simpa using hempty
      cases hw : Text.sameWord e "chunked" with
      | false => simpa [hempty', hempty] using ih
      | true =>
        simp only [hempty', Bool.false_eq_true, ite_false, ite_true, and_true, reduceCtorEq,
          false_and, and_false, or_false]
        cases es with
        | nil => simp [endsChunked]
        | cons f fs =>
          simp only [endsChunked, ite_true, reduceCtorEq, iff_false]
          repeat' split
          · simp
          · simp
          · exact endsChunked_seen

theorem says_decimal (n : Nat) : Says n (Numeral.decimal n) := by
  have htrim : Text.trim (Numeral.print 10 n) = Numeral.print 10 n :=
    Text.trimBy_of_all (Numeral.print_chars (by decide) (by decide) (by decide))
  simp only [Says, Numeral.decimal, String.toList_ofList, htrim]
  exact Numeral.read?_print (by decide) (by decide) n

section Resolve

variable {h : Fields} {n : Nat}

theorem resolve_of_no_coding (hc : h.contains "Transfer-Encoding" = false) :
    resolve h false = (contentLength h).map fun
      | some n => .length n
      | none => .untilClose := by
  have hv := (h.values_eq_nil_iff _).2 hc
  simp only [resolve, transferCoding, hv, List.isEmpty_nil, ite_true, bind, Except.bind, pure,
    Except.pure]
  rcases contentLength h with error | (_ | n) <;> rfl

theorem resolve_length_iff (hc : h.contains "Transfer-Encoding" = false) :
    resolve h false = .ok (.length n) ↔ h.values "Content-Length" ≠ [] ∧
      ∀ v ∈ h.values "Content-Length", Says n v ∧ n ≤ Numeral.wordLimit := by
  rw [resolve_of_no_coding hc]
  have hiff := @commonLength_iff none n (h.values "Content-Length")
    (by simp)
  simp only [reduceCtorEq, false_or] at hiff
  rw [← hiff, contentLength]
  rcases commonLength none (h.values "Content-Length") with error | (_ | m) <;>
    simp [Except.map]

theorem resolve_chunked_iff (hl : h.contains "Content-Length" = false)
    (hc : h.contains "Transfer-Encoding" = true) :
    resolve h false = .ok .chunked ↔ EndsOnce (h.elements "Transfer-Encoding") := by
  have hv : (h.values "Transfer-Encoding").isEmpty = false := by
    rw [List.isEmpty_eq_false_iff, ne_eq, h.values_eq_nil_iff, hc]
    simp
  have hlv := (h.values_eq_nil_iff _).2 hl
  rw [← endsChunked_iff]
  simp only [resolve, transferCoding, contentLength, hv, hlv, commonLength, bind, Except.bind,
    pure, Except.pure, Except.map]
  rcases endsChunked false false (h.elements "Transfer-Encoding") with error | (_ | _) <;> simp

theorem resolve_push_length_iff (hc : h.contains "Transfer-Encoding" = false)
    (hl : h.contains "Content-Length" = false) :
    resolve (h.push ⟨"Content-Length", Numeral.decimal n⟩) false = .ok (.length n) ↔
      n ≤ Numeral.wordLimit := by
  have hnil := (h.values_eq_nil_iff _).2 hl
  have hvalues : (h.push ⟨"Content-Length", Numeral.decimal n⟩).values "Content-Length" =
      [Numeral.decimal n] := by
    simp [Fields.values_push, hnil, Field.named, Text.sameWord_refl]
  have hother : Text.sameWord "Content-Length" "Transfer-Encoding" = false := by decide
  have hcoding : (h.push ⟨"Content-Length", Numeral.decimal n⟩).contains "Transfer-Encoding" =
      false := by
    simp [Fields.contains_push, hc, Field.named, hother]
  simp [resolve_length_iff hcoding, hvalues, says_decimal]

theorem resolve_push_chunked (hc : h.contains "Transfer-Encoding" = false)
    (hl : h.contains "Content-Length" = false) :
    resolve (h.push ⟨"Transfer-Encoding", "chunked"⟩) false = .ok .chunked := by
  have hnil := (h.values_eq_nil_iff _).2 hc
  have hvalues : (h.push ⟨"Transfer-Encoding", "chunked"⟩).values "Transfer-Encoding" =
      ["chunked"] := by
    simp [Fields.values_push, hnil, Field.named, Text.sameWord_refl]
  have hother : Text.sameWord "Transfer-Encoding" "Content-Length" = false := by decide
  have hlength : (h.push ⟨"Transfer-Encoding", "chunked"⟩).contains "Content-Length" = false := by
    simp [Fields.contains_push, hl, Field.named, hother]
  have hcoding : (h.push ⟨"Transfer-Encoding", "chunked"⟩).contains "Transfer-Encoding" = true := by
    simp [Fields.contains_push, Field.named, Text.sameWord_refl]
  have helements : (h.push ⟨"Transfer-Encoding", "chunked"⟩).elements "Transfer-Encoding" =
      ["chunked"] := by
    simp only [Fields.elements, hvalues]
    decide
  rw [resolve_chunked_iff hlength hcoding, helements]
  exact ⟨[], "chunked", rfl, by decide, by simp⟩

end Resolve

end Framing
end HttpClient
