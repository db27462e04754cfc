import HttpClient.Proofs.Fields.Framing
import HttpClient.Proofs.Text.Spelling
import Mathlib.Data.List.Forall2
set_option autoImplicit false

/-!
What decides how a body ends. The fields that frame it have faults or none, whether or not a body is
expected; if they have none, the codings and the lengths they name decide, and nothing else about
how they are written does.
-/

namespace HttpClient

namespace Numeral

variable {c : Char} {cs : List Char} {ds : List Nat} {d : Nat}

theorem isDigit_iff : c.isDigit = true ↔ 48 ≤ c.toNat ∧ c.toNat ≤ 57 := by
  change (decide ('0'.val ≤ c.val) && decide (c.val ≤ '9'.val)) = true ↔ _
  simp only [Bool.and_eq_true, decide_eq_true_eq]
  exact Iff.rfl

theorem digitOf?_ten : digitOf? 10 c = some d ↔ c.isDigit = true ∧ d = c.toNat - 48 := by
  constructor
  · intro h
    obtain ⟨hlt, rfl⟩ := digitOf?_decimal h
    have hall : ∀ d < 10, (digitChar d).isDigit = true ∧ d = (digitChar d).toNat - 48 := by decide
    exact hall d hlt
  · rintro ⟨hc, rfl⟩
    have hrange := isDigit_iff.1 hc
    have hlt : c.toNat - 48 < 10 := by omega
    have hvalue : digitValue? c = some (c.toNat - 48) := if_pos hrange
    rw [digitOf?, hvalue, Option.filter_some, decide_eq_true hlt, if_pos rfl]

theorem mapM_digitOf?_ten : cs.mapM (digitOf? 10) = some ds ↔
    (∀ c ∈ cs, c.isDigit = true) ∧ ds = cs.map fun c => c.toNat - 48 := by
  induction cs generalizing ds with
  | nil =>
    rw [List.mapM_nil]
    exact ⟨fun h => ⟨by simp, (Option.some.inj h).symm⟩, fun h => congrArg some h.2.symm⟩
  | cons c cs ih =>
    simp only [List.mapM_cons, bind, Option.bind_eq_some_iff, pure, Option.some.injEq,
      digitOf?_ten, ih, List.forall_mem_cons, List.map_cons]
    constructor
    · rintro ⟨d, ⟨hc, rfl⟩, ds, ⟨hcs, rfl⟩, rfl⟩
      exact ⟨⟨hc, hcs⟩, rfl⟩
    · rintro ⟨⟨hc, hcs⟩, rfl⟩
      exact ⟨_, ⟨hc, rfl⟩, _, ⟨hcs, rfl⟩, rfl⟩

end Numeral

namespace Framing

/-- The value holds figures and nothing else but blanks around them. -/
def IsFigures (value : String) : Prop :=
  Text.trim value.toList ≠ [] ∧ ∀ c ∈ Text.trim value.toList, c.isDigit = true

def number (value : String) : Nat :=
  (Text.trim value.toList).foldl (fun n c => 10 * n + (c.toNat - 48)) 0

/-- What can be wrong with the fields that frame a body. -/
inductive Fault (h : Fields) : Malformed → Prop where
  | emptyCoding {coding : String} (listed : coding ∈ h.elements "Transfer-Encoding")
      (empty : coding.toList = []) : Fault h .emptyCoding
  | repeatedChunked (twice : 1 < (h.elements "Transfer-Encoding").countP
      fun coding => Text.sameWord coding "chunked") : Fault h .repeatedChunked
  | lengthNotNumber {value : String} (given : value ∈ h.values "Content-Length")
      (other : ¬IsFigures value) : Fault h .lengthNotNumber
  | lengthOverflow {value : String} (given : value ∈ h.values "Content-Length")
      (figures : IsFigures value) (beyond : Numeral.wordLimit < number value) :
      Fault h .lengthOverflow
  | lengthMismatch {value value' : String} (given : value ∈ h.values "Content-Length")
      (given' : value' ∈ h.values "Content-Length") (figures : IsFigures value)
      (figures' : IsFigures value') (differ : number value ≠ number value') :
      Fault h .lengthMismatch

/-- How a body ends behind fields without a fault. -/
inductive Decides (h : Fields) : Bool → Framing → Prop where
  | bodiless : Decides h true .empty
  | chunked {last : String} (listed : (h.elements "Transfer-Encoding").getLast? = some last)
      (chunked : Text.sameWord last "chunked" = true) : Decides h false .chunked
  | coded {last : String} (listed : (h.elements "Transfer-Encoding").getLast? = some last)
      (other : Text.sameWord last "chunked" = false) : Decides h false .untilClose
  | length {value : String} (uncoded : h.contains "Transfer-Encoding" = false)
      (given : value ∈ h.values "Content-Length") : Decides h false (.length (number value))
  | silent (uncoded : h.contains "Transfer-Encoding" = false)
      (unstated : h.contains "Content-Length" = false) : Decides h false .untilClose

theorem says_iff {n : Nat} {value : String} :
    Says n value ↔ IsFigures value ∧ number value = n := by
  unfold Says Numeral.read? IsFigures number
  simp only [List.isEmpty_iff]
  by_cases hnil : Text.trim value.toList = []
  · simp [hnil]
  · simp only [hnil, if_false, Option.map_eq_some_iff, Numeral.mapM_digitOf?_ten, ne_eq,
      not_false_eq_true, true_and]
    constructor
    · rintro ⟨ds, ⟨hall, rfl⟩, rfl⟩
      exact ⟨hall, by rw [Numeral.value, List.foldl_map]⟩
    · rintro ⟨hall, rfl⟩
      exact ⟨_, ⟨hall, rfl⟩, by rw [Numeral.value, List.foldl_map]⟩

section Codings

variable {seen last b : Bool} {es : List String} {error : Malformed}

theorem endsChunked_eq_ok_iff : endsChunked seen last es = .ok b ↔
    (∀ e ∈ es, e.toList ≠ []) ∧
      (es.countP fun e => Text.sameWord e "chunked") + seen.toNat ≤ 1 ∧
      b = (es.getLast?.map fun e => Text.sameWord e "chunked").getD last := by
  induction es generalizing seen last with
  | nil => cases seen <;> cases last <;> cases b <;> simp [endsChunked]
  | cons e es ih =>
    have hlast : Text.sameWord (es.getLast?.getD e) "chunked" =
        (es.getLast?.map fun e => Text.sameWord e "chunked").getD
          (Text.sameWord e "chunked") := by rw [Option.getD_map]
    rw [List.forall_mem_cons, List.countP_cons, List.getLast?_cons, Option.map_some,
      Option.getD_some, hlast]
    simp only [endsChunked, List.isEmpty_iff]
    by_cases hempty : e.toList = []
    · simp [hempty]
    · cases hw : Text.sameWord e "chunked" with
      | true => cases seen <;> simp [hempty, ih]
      | false => simp [hempty, ih]

theorem endsChunked_eq_error (h : endsChunked seen last es = .error error) :
    (error = .emptyCoding ∧ ∃ e ∈ es, e.toList = []) ∨
      (error = .repeatedChunked ∧
        1 < (es.countP fun e => Text.sameWord e "chunked") + seen.toNat) := by
  induction es generalizing seen last with
  | nil => cases h
  | cons e es ih =>
    simp only [endsChunked, List.isEmpty_iff] at h
    rw [List.countP_cons]
    split at h
    next hempty =>
      cases h
      exact .inl ⟨rfl, e, List.mem_cons_self, hempty⟩
    next =>
      split at h
      next hw =>
        split at h
        next hseen =>
          cases h
          exact .inr ⟨rfl, by simp [hw, hseen]⟩
        next hseen =>
          rcases ih h with ⟨he, d, hd, hempty⟩ | ⟨he, htwice⟩
          · exact .inl ⟨he, d, List.mem_cons_of_mem e hd, hempty⟩
          · exact .inr ⟨he, by simpa [hw, hseen] using htwice⟩
      next hw =>
        rcases ih h with ⟨he, d, hd, hempty⟩ | ⟨he, htwice⟩
        · exact .inl ⟨he, d, List.mem_cons_of_mem e hd, hempty⟩
        · exact .inr ⟨he, by simpa [hw] using htwice⟩

end Codings

section Lengths

variable {h : Fields} {known : Option Nat} {n : Nat} {vs : List String} {error : Malformed}

theorem commonLength_eq_error (hvs : ∀ v ∈ vs, v ∈ h.values "Content-Length")
    (hknown : ∀ m, known = some m → ∃ v ∈ h.values "Content-Length", Says m v)
    (he : commonLength known vs = .error error) : Fault h error := by
  induction vs generalizing known with
  | nil => cases he
  | cons v vs ih =>
    obtain ⟨hv, hvs⟩ := List.forall_mem_cons.1 hvs
    rw [commonLength] at he
    split at he
    next hread =>
      cases he
      refine .lengthNotNumber hv fun figures => ?_
      have hsays := says_iff.2 ⟨figures, rfl⟩
      rw [Says, hread] at hsays
      cases hsays
    next n hread =>
      have hsays : Says n v := hread
      obtain ⟨figures, rfl⟩ := says_iff.1 hsays
      have hnext : ∀ m, some (number v) = some m → ∃ v ∈ h.values "Content-Length", Says m v := by
        intro m hm
        cases hm
        exact ⟨v, hv, hsays⟩
      split at he
      next hover =>
        cases he
        exact .lengthOverflow hv figures hover
      next =>
        cases known with
        | none => exact ih hvs hnext he
        | some m =>
          obtain ⟨w, hw, hsaysw⟩ := hknown m rfl
          obtain ⟨figuresw, rfl⟩ := says_iff.1 hsaysw
          simp only at he
          split at he
          next hne =>
            cases he
            exact .lengthMismatch hw hv figuresw figures hne
          next => exact ih hvs hnext he

theorem contentLength_eq_ok_iff : contentLength h = .ok (some n) ↔ h.values "Content-Length" ≠ [] ∧
    ∀ v ∈ h.values "Content-Length", IsFigures v ∧ number v = n ∧ n ≤ Numeral.wordLimit := by
  have hiff := @commonLength_iff none n (h.values "Content-Length") (by simp)
  rw [contentLength]
  simpa only [reduceCtorEq, false_or, says_iff, and_assoc] using hiff

theorem contentLength_eq_none_iff :
    contentLength h = .ok none ↔ h.values "Content-Length" = [] := by
  cases hv : h.values "Content-Length" with
  | nil => simp [contentLength, hv, commonLength]
  | cons v vs =>
    simp only [reduceCtorEq, iff_false]
    intro hnone
    rw [contentLength, hv, commonLength] at hnone
    repeat' split at hnone
    · cases hnone
    · cases hnone
    · cases commonLength_some hnone
    · cases hnone
    · cases commonLength_some hnone

end Lengths

section Resolve

variable {h h' : Fields} {bodiless b : Bool} {framing : Framing} {error : Malformed}

theorem elements_ne_nil (hc : h.contains "Transfer-Encoding" = true) :
    h.elements "Transfer-Encoding" ≠ [] := by
  have hv : h.values "Transfer-Encoding" ≠ [] := by
    rw [ne_eq, h.values_eq_nil_iff, hc]
    decide
  obtain ⟨v, vs, hvs⟩ := List.exists_cons_of_ne_nil hv
  rw [Fields.elements, hvs, List.flatMap_cons]
  simp [Text.splitOn_ne_nil]

theorem transferCoding_eq_none_iff :
    transferCoding h = .ok none ↔ h.contains "Transfer-Encoding" = false := by
  rw [← h.values_eq_nil_iff, transferCoding]
  simp only [List.isEmpty_iff]
  split
  next hv => simp [hv]
  next hv =>
    cases endsChunked false false (h.elements "Transfer-Encoding") <;> simp [hv, Except.map]

theorem transferCoding_eq_some_iff : transferCoding h = .ok (some b) ↔
    h.contains "Transfer-Encoding" = true ∧
      (∀ e ∈ h.elements "Transfer-Encoding", e.toList ≠ []) ∧
      ((h.elements "Transfer-Encoding").countP fun e => Text.sameWord e "chunked") ≤ 1 ∧
      ∃ last, (h.elements "Transfer-Encoding").getLast? = some last ∧
        Text.sameWord last "chunked" = b := by
  cases hc : h.contains "Transfer-Encoding" with
  | false => simp [transferCoding_eq_none_iff.2 hc]
  | true =>
    have hv : (h.values "Transfer-Encoding").isEmpty = false := by
      rw [List.isEmpty_eq_false_iff, ne_eq, h.values_eq_nil_iff, hc]
      decide
    have hlast := List.getLast?_eq_some_getLast (elements_ne_nil hc)
    have hmap : transferCoding h = .ok (some b) ↔
        endsChunked false false (h.elements "Transfer-Encoding") = .ok b := by
      simp only [transferCoding, hv, Bool.false_eq_true, if_false]
      cases endsChunked false false (h.elements "Transfer-Encoding") <;> simp [Except.map]
    rw [hmap, endsChunked_eq_ok_iff, hlast]
    constructor
    · rintro ⟨hne, hcount, rfl⟩
      exact ⟨rfl, hne, hcount, _, rfl, rfl⟩
    · rintro ⟨-, hne, hcount, last, hl, rfl⟩
      cases hl
      exact ⟨hne, hcount, rfl⟩

theorem fault_of_coding (ht : transferCoding h = .error error) : Fault h error := by
  unfold transferCoding at ht
  split at ht
  next => cases ht
  next =>
    cases hends : endsChunked false false (h.elements "Transfer-Encoding") with
    | ok b =>
      rw [hends] at ht
      cases ht
    | error e =>
      rw [hends] at ht
      cases ht
      rcases endsChunked_eq_error hends with ⟨rfl, e, listed, empty⟩ | ⟨rfl, twice⟩
      · exact .emptyCoding listed empty
      · exact .repeatedChunked twice

theorem fault_of_length (hl : contentLength h = .error error) : Fault h error :=
  commonLength_eq_error (fun _ hv => hv) (by simp) hl

theorem faultless_of_ok {coding : Option Bool} {length : Option Nat}
    (ht : transferCoding h = .ok coding) (hl : contentLength h = .ok length) (error : Malformed) :
    ¬Fault h error := by
  have hcodings (hne : h.elements "Transfer-Encoding" ≠ []) :
      (∀ e ∈ h.elements "Transfer-Encoding", e.toList ≠ []) ∧
        ((h.elements "Transfer-Encoding").countP fun e => Text.sameWord e "chunked") ≤ 1 := by
    cases coding with
    | none =>
      have hnone := (h.values_eq_nil_iff _).2 (transferCoding_eq_none_iff.1 ht)
      rw [Fields.elements, hnone] at hne
      exact absurd rfl hne
    | some b =>
      have hsome := transferCoding_eq_some_iff.1 ht
      exact ⟨hsome.2.1, hsome.2.2.1⟩
  have hlengths : ∃ n, ∀ v ∈ h.values "Content-Length",
      IsFigures v ∧ number v = n ∧ n ≤ Numeral.wordLimit := by
    cases length with
    | none =>
      rw [contentLength_eq_none_iff.1 hl]
      exact ⟨0, by simp⟩
    | some n => exact ⟨n, (contentLength_eq_ok_iff.1 hl).2⟩
  obtain ⟨n, hlengths⟩ := hlengths
  intro fault
  cases fault with
  | emptyCoding listed empty => exact (hcodings (List.ne_nil_of_mem listed)).1 _ listed empty
  | repeatedChunked twice =>
    have hne : h.elements "Transfer-Encoding" ≠ [] := by
      intro hnil
      rw [hnil] at twice
      cases twice
    exact absurd twice (Nat.not_lt.2 (hcodings hne).2)
  | lengthNotNumber given other => exact other (hlengths _ given).1
  | lengthOverflow given figures beyond =>
    obtain ⟨-, hn, hle⟩ := hlengths _ given
    omega
  | lengthMismatch given given' figures figures' differ =>
    exact differ ((hlengths _ given).2.1.trans (hlengths _ given').2.1.symm)

theorem decides_unique {framing' : Framing} (faultless : ∀ error, ¬Fault h error)
    (hd : Decides h bodiless framing) (hd' : Decides h bodiless framing') : framing = framing' := by
  have hsome {last : String} (listed : (h.elements "Transfer-Encoding").getLast? = some last) :
      h.contains "Transfer-Encoding" = true := by
    rw [← Bool.not_eq_false, ← h.values_eq_nil_iff]
    intro hnil
    rw [Fields.elements, hnil] at listed
    cases listed
  have hfigures {value : String} (given : value ∈ h.values "Content-Length") : IsFigures value := by
    by_contra other
    exact faultless _ (.lengthNotNumber given other)
  cases hd with
  | bodiless =>
    cases hd'
    rfl
  | chunked listed chunked =>
    cases hd' with
    | chunked => rfl
    | coded listed' other =>
      cases listed.symm.trans listed'
      rw [chunked] at other
      cases other
    | length uncoded => simp [hsome listed] at uncoded
    | silent uncoded => simp [hsome listed] at uncoded
  | coded listed other =>
    cases hd' with
    | chunked listed' chunked =>
      cases listed.symm.trans listed'
      rw [chunked] at other
      cases other
    | coded => rfl
    | length uncoded => simp [hsome listed] at uncoded
    | silent => rfl
  | length uncoded given =>
    cases hd' with
    | chunked listed => simp [hsome listed] at uncoded
    | coded listed => simp [hsome listed] at uncoded
    | length _ given' =>
      refine congrArg Framing.length ?_
      by_contra differ
      exact faultless _ (.lengthMismatch given given' (hfigures given) (hfigures given') differ)
    | silent _ unstated =>
      rw [(h.values_eq_nil_iff _).2 unstated] at given
      cases given
  | silent uncoded unstated =>
    cases hd' with
    | chunked listed => simp [hsome listed] at uncoded
    | coded => rfl
    | length _ given =>
      rw [(h.values_eq_nil_iff _).2 unstated] at given
      cases given
    | silent => rfl

theorem decides_of_ok {coding : Option Bool} {length : Option Nat} (bodiless : Bool)
    (ht : transferCoding h = .ok coding) (hl : contentLength h = .ok length) :
    ∃ framing, resolve h bodiless = .ok framing ∧ Decides h bodiless framing := by
  simp only [resolve, ht, hl, bind, Except.bind, pure, Except.pure]
  cases bodiless with
  | true => exact ⟨_, rfl, .bodiless⟩
  | false =>
    cases coding with
    | some b =>
      obtain ⟨-, -, -, last, listed, hlast⟩ := transferCoding_eq_some_iff.1 ht
      cases b with
      | true => exact ⟨_, rfl, .chunked listed hlast⟩
      | false => exact ⟨_, rfl, .coded listed hlast⟩
    | none =>
      have uncoded := transferCoding_eq_none_iff.1 ht
      cases length with
      | none =>
        exact ⟨_, rfl, .silent uncoded ((h.values_eq_nil_iff _).1 (contentLength_eq_none_iff.1 hl))⟩
      | some n =>
        obtain ⟨hne, hall⟩ := contentLength_eq_ok_iff.1 hl
        obtain ⟨v, given⟩ := List.exists_mem_of_ne_nil _ hne
        obtain ⟨-, rfl, -⟩ := hall v given
        exact ⟨_, rfl, .length uncoded given⟩

/-- Either an error names a fault, or there is none and a framing is decided for. -/
theorem resolve_cases (h : Fields) (bodiless : Bool) :
    (∃ error, resolve h bodiless = .error error ∧ Fault h error) ∨
      ∃ framing, resolve h bodiless = .ok framing ∧ (∀ error, ¬Fault h error) ∧
        Decides h bodiless framing := by
  cases ht : transferCoding h with
  | error error =>
    refine .inl ⟨error, ?_, fault_of_coding ht⟩
    simp only [resolve, ht, bind, Except.bind]
  | ok coding =>
    cases hl : contentLength h with
    | error error =>
      refine .inl ⟨error, ?_, fault_of_length hl⟩
      simp only [resolve, ht, hl, bind, Except.bind]
    | ok length =>
      obtain ⟨framing, hok, hd⟩ := decides_of_ok bodiless ht hl
      exact .inr ⟨framing, hok, faultless_of_ok ht hl, hd⟩

theorem resolve_eq_ok_iff : resolve h bodiless = .ok framing ↔
    (∀ error, ¬Fault h error) ∧ Decides h bodiless framing := by
  rcases resolve_cases h bodiless with ⟨error, he, fault⟩ | ⟨framing', hok, faultless, hd⟩
  · simp only [he, reduceCtorEq, false_iff, not_and]
    exact fun faultless => absurd fault (faultless error)
  · rw [hok, Except.ok.injEq]
    constructor
    · rintro rfl
      exact ⟨faultless, hd⟩
    · rintro ⟨-, hd'⟩
      exact decides_unique faultless hd hd'

theorem resolve_fails_iff :
    (∃ error, resolve h bodiless = .error error) ↔ ∃ error, Fault h error := by
  rcases resolve_cases h bodiless with ⟨error, he, fault⟩ | ⟨framing, hok, faultless, -⟩
  · exact ⟨fun _ => ⟨error, fault⟩, fun _ => ⟨error, he⟩⟩
  · simp [hok, faultless]

end Resolve

section Rewriting

variable {h h' : Fields} {bodiless : Bool} {framing : Framing} {error : Malformed}

def isFraming (f : Field) : Bool := f.named "Transfer-Encoding" || f.named "Content-Length"

/-- Ways to write the fields of a message otherwise: names in another letter case, all codings in
one field, other fields besides those of the framing. -/
inductive Rewritten (h : Fields) : Fields → Prop where
  | recased {h' : Fields} (same : List.Forall₂
      (fun f g => Text.sameWord f.name g.name = true ∧ f.value = g.value) h.entries h'.entries) :
      Rewritten h h'
  | joined {h' : Fields} {blanks : String} (coded : h.contains "Transfer-Encoding" = true)
      (blank : ∀ c ∈ blanks.toList, Text.isBlank c = true)
      (one : h'.values "Transfer-Encoding" =
        [("," ++ blanks).intercalate (h.values "Transfer-Encoding")])
      (rest : h'.without "Transfer-Encoding" = h.without "Transfer-Encoding") : Rewritten h h'
  | unrelated {h' : Fields} (same : h'.entries.filter isFraming = h.entries.filter isFraming) :
      Rewritten h h'

/-- The Content-Length fields in another order, or one of them once more. -/
inductive Shuffled (h : Fields) : Fields → Prop where
  | permuted {h' : Fields} (same : (h'.values "Content-Length").Perm (h.values "Content-Length"))
      (rest : h'.without "Content-Length" = h.without "Content-Length") : Shuffled h h'
  | repeated {h' : Fields} {value : String} (given : value ∈ h.values "Content-Length")
      (more : (h'.values "Content-Length").Perm (value :: h.values "Content-Length"))
      (rest : h'.without "Content-Length" = h.without "Content-Length") : Shuffled h h'

theorem values_of_recased {fs gs : List Field} (same : List.Forall₂
    (fun f g => Text.sameWord f.name g.name = true ∧ f.value = g.value) fs gs) (n : String) :
    Fields.values ⟨gs⟩ n = Fields.values ⟨fs⟩ n := by
  induction same with
  | nil => rfl
  | @cons f g fs gs hfg _ ih =>
    obtain ⟨hname, hvalue⟩ := hfg
    have hnamed : g.named n = f.named n := by
      have hwords : f.name.toList.map Char.toLower = g.name.toList.map Char.toLower :=
        eq_of_beq hname
      simp only [Field.named, Text.sameWord, hwords]
    simp only [Fields.values, List.filter_cons, hnamed] at ih ⊢
    split <;> simp [ih, hvalue]

theorem values_of_unrelated (same : h'.entries.filter isFraming = h.entries.filter isFraming)
    {n : String} (hn : n = "Transfer-Encoding" ∨ n = "Content-Length") :
    h'.values n = h.values n := by
  have hsub (f : Field) : (f.named n && isFraming f) = f.named n := by
    rcases hn with rfl | rfl
    · simp only [isFraming, Bool.and_or_distrib_left, Bool.and_self]
      cases f.named "Transfer-Encoding" <;> simp
    · simp only [isFraming, Bool.and_or_distrib_left, Bool.and_self]
      cases f.named "Content-Length" <;> simp
  have hfilter (h : Fields) : (h.entries.filter isFraming).filter (·.named n) =
      h.entries.filter (·.named n) := by
    rw [List.filter_filter]
    exact List.filter_congr fun f _ => hsub f
  rw [Fields.values, Fields.values, ← hfilter h', ← hfilter h, same]

theorem values_of_without {m n : String} (hmn : Text.sameWord m n = false)
    (rest : h'.without m = h.without m) : h'.values n = h.values n := by
  have hvalues := congrArg (Fields.values · n) rest
  simpa only [Fields.values_without, hmn, Bool.false_eq_true, if_false] using hvalues

theorem map_trim_splitOn {blanks : List Char} (blank : ∀ c ∈ blanks, Text.isBlank c = true)
    (cs : List Char) : (Text.splitOn ',' (blanks ++ cs)).map Text.trim =
      (Text.splitOn ',' cs).map Text.trim := by
  induction blanks with
  | nil => rfl
  | cons c blanks ih =>
    obtain ⟨hc, hblanks⟩ := List.forall_mem_cons.1 blank
    have hcomma : c ≠ ',' := by
      rintro rfl
      exact absurd hc (by decide)
    obtain ⟨part, parts, hparts⟩ :=
      List.exists_cons_of_ne_nil (Text.splitOn_ne_nil ',' (blanks ++ cs))
    rw [← ih hblanks, List.cons_append, Text.splitOn, if_neg hcomma, hparts, List.map_cons,
      List.map_cons, Text.trim, Text.trimBy_cons hc, Text.trim]

theorem map_trim_intercalate {blanks : List Char} (blank : ∀ c ∈ blanks, Text.isBlank c = true)
    {parts : List (List Char)} (hne : parts ≠ []) :
    (Text.splitOn ',' ((',' :: blanks).intercalate parts)).map Text.trim =
      parts.flatMap fun part => (Text.splitOn ',' part).map Text.trim := by
  induction parts with
  | nil => exact absurd rfl hne
  | cons part parts ih =>
    cases parts with
    | nil => simp [List.intercalate]
    | cons next parts =>
      rw [List.intercalate_cons_cons, List.append_assoc, List.cons_append, Text.splitOn_append,
        List.map_append, map_trim_splitOn blank, ih (by simp)]
      rfl

theorem elements_of_joined {blanks : String} (coded : h.contains "Transfer-Encoding" = true)
    (blank : ∀ c ∈ blanks.toList, Text.isBlank c = true)
    (one : h'.values "Transfer-Encoding" =
      [("," ++ blanks).intercalate (h.values "Transfer-Encoding")]) :
    h'.elements "Transfer-Encoding" = h.elements "Transfer-Encoding" := by
  have hne : (h.values "Transfer-Encoding").map String.toList ≠ [] := by
    rw [ne_eq, List.map_eq_nil_iff, h.values_eq_nil_iff, coded]
    decide
  have hjoin : (("," ++ blanks).intercalate (h.values "Transfer-Encoding")).toList =
      (',' :: blanks.toList).intercalate ((h.values "Transfer-Encoding").map String.toList) := by
    rw [String.toList_intercalate, String.toList_append]
    rfl
  have hparts := congrArg (List.map String.ofList) (map_trim_intercalate blank hne)
  rw [List.map_map, List.map_flatMap, List.flatMap_map] at hparts
  simp only [List.map_map] at hparts
  rw [Fields.elements, one, List.flatMap_cons, List.flatMap_nil, List.append_nil, hjoin]
  exact hparts

theorem resolve_congr (hlist : h'.elements "Transfer-Encoding" = h.elements "Transfer-Encoding")
    (hcoded : (h'.values "Transfer-Encoding").isEmpty = (h.values "Transfer-Encoding").isEmpty)
    (hlengths : h'.values "Content-Length" = h.values "Content-Length") :
    resolve h' bodiless = resolve h bodiless := by
  simp only [resolve, transferCoding, contentLength, hlist, hcoded, hlengths]

theorem resolve_of_values
    (hcodings : h'.values "Transfer-Encoding" = h.values "Transfer-Encoding")
    (hlengths : h'.values "Content-Length" = h.values "Content-Length") :
    resolve h' bodiless = resolve h bodiless :=
  resolve_congr (by rw [Fields.elements, Fields.elements, hcodings]) (by rw [hcodings]) hlengths

theorem resolve_rewritten (rewritten : Rewritten h h') :
    resolve h' bodiless = resolve h bodiless := by
  cases rewritten with
  | recased same => exact resolve_of_values (values_of_recased same _) (values_of_recased same _)
  | joined coded blank one rest =>
    have hcoded : h.values "Transfer-Encoding" ≠ [] := by
      rw [ne_eq, h.values_eq_nil_iff, coded]
      decide
    have hlengths : h'.values "Content-Length" = h.values "Content-Length" :=
      values_of_without (by decide) rest
    refine resolve_congr (elements_of_joined coded blank one) ?_ hlengths
    rw [one, List.isEmpty_eq_false_iff.2 hcoded]
    rfl
  | unrelated same =>
    exact resolve_of_values (values_of_unrelated same (.inl rfl))
      (values_of_unrelated same (.inr rfl))

/-- The same codings and the same lengths, in whatever order and number, have the same faults. -/
theorem fault_of_mem (hcodings : h'.values "Transfer-Encoding" = h.values "Transfer-Encoding")
    (hlengths : ∀ v, v ∈ h.values "Content-Length" → v ∈ h'.values "Content-Length")
    (fault : Fault h error) : Fault h' error := by
  have hlist : h'.elements "Transfer-Encoding" = h.elements "Transfer-Encoding" := by
    rw [Fields.elements, Fields.elements, hcodings]
  cases fault with
  | emptyCoding listed empty => exact .emptyCoding (hlist ▸ listed) empty
  | repeatedChunked twice => exact .repeatedChunked (hlist ▸ twice)
  | lengthNotNumber given other => exact .lengthNotNumber (hlengths _ given) other
  | lengthOverflow given figures beyond => exact .lengthOverflow (hlengths _ given) figures beyond
  | lengthMismatch given given' figures figures' differ =>
    exact .lengthMismatch (hlengths _ given) (hlengths _ given') figures figures' differ

theorem decides_of_mem (hcodings : h'.values "Transfer-Encoding" = h.values "Transfer-Encoding")
    (hlengths : ∀ v, v ∈ h'.values "Content-Length" ↔ v ∈ h.values "Content-Length")
    (hd : Decides h bodiless framing) : Decides h' bodiless framing := by
  have hlist : h'.elements "Transfer-Encoding" = h.elements "Transfer-Encoding" := by
    rw [Fields.elements, Fields.elements, hcodings]
  have hcoded := Fields.contains_congr hcodings
  cases hd with
  | bodiless => exact .bodiless
  | chunked listed chunked => exact .chunked (hlist ▸ listed) chunked
  | coded listed other => exact .coded (hlist ▸ listed) other
  | length uncoded given => exact .length (hcoded ▸ uncoded) ((hlengths _).2 given)
  | silent uncoded unstated =>
    refine .silent (hcoded ▸ uncoded) ?_
    rw [← Fields.values_eq_nil_iff, List.eq_nil_iff_forall_not_mem] at unstated ⊢
    exact fun v hv => unstated v ((hlengths v).1 hv)

theorem resolve_ok_of_mem
    (hcodings : h'.values "Transfer-Encoding" = h.values "Transfer-Encoding")
    (hlengths : ∀ v, v ∈ h'.values "Content-Length" ↔ v ∈ h.values "Content-Length") :
    resolve h' bodiless = .ok framing ↔ resolve h bodiless = .ok framing := by
  have hfault (error : Malformed) : Fault h' error ↔ Fault h error :=
    ⟨fault_of_mem hcodings.symm fun v => (hlengths v).1,
      fault_of_mem hcodings fun v => (hlengths v).2⟩
  have hdecides : Decides h' bodiless framing ↔ Decides h bodiless framing :=
    ⟨decides_of_mem hcodings.symm fun v => (hlengths v).symm, decides_of_mem hcodings hlengths⟩
  simp only [resolve_eq_ok_iff, hfault, hdecides]

theorem resolve_shuffled (shuffled : Shuffled h h') :
    resolve h' bodiless = .ok framing ↔ resolve h bodiless = .ok framing := by
  cases shuffled with
  | permuted same rest =>
    exact resolve_ok_of_mem (values_of_without (by decide) rest) fun v => same.mem_iff
  | repeated given more rest =>
    refine resolve_ok_of_mem (values_of_without (by decide) rest) fun v => ?_
    rw [more.mem_iff, List.mem_cons]
    exact ⟨fun hv => hv.elim (fun he => he ▸ given) id, .inr⟩

end Rewriting

/-- The framing of a body is an error exactly if the fields have a fault, whether or not a body is
expected, and such an error names a fault that there is; otherwise codings and lengths decide. How
the fields are written does not count, except that of several faults another may be named when
lengths are shuffled. -/
theorem resolve_by_content (h : Fields) (bodiless : Bool) :
    ((∃ error, resolve h bodiless = .error error) ↔ ∃ error, Fault h error) ∧
    (∀ error, resolve h bodiless = .error error → Fault h error) ∧
    (∀ framing, resolve h bodiless = .ok framing ↔
      (∀ error, ¬Fault h error) ∧ Decides h bodiless framing) ∧
    (∀ h', Rewritten h h' → resolve h' bodiless = resolve h bodiless) ∧
    ∀ h', Shuffled h h' → ∀ framing,
      resolve h' bodiless = .ok framing ↔ resolve h bodiless = .ok framing := by
  refine ⟨resolve_fails_iff, fun error he => ?_, fun framing => resolve_eq_ok_iff,
    fun h' => resolve_rewritten, fun h' shuffled framing => resolve_shuffled shuffled⟩
  rcases resolve_cases h bodiless with ⟨error', he', fault⟩ | ⟨framing, hok, -, -⟩
  · cases he.symm.trans he'
    exact fault
  · cases he.symm.trans hok

/-- Two codings and two lengths, which agree, among other fields. -/
def twofold : Fields :=
  ⟨[⟨"transfer-encoding", "gzip"⟩, ⟨"Content-Length", "5"⟩, ⟨"Server", "s"⟩,
    ⟨"Transfer-Encoding", "Chunked"⟩, ⟨"content-length", " 05"⟩]⟩

def twofoldJoined : Fields :=
  ⟨[⟨"Content-Length", "5"⟩, ⟨"Transfer-Encoding", "gzip, Chunked"⟩, ⟨"Server", "s"⟩,
    ⟨"content-length", " 05"⟩]⟩

def twofoldSwapped : Fields :=
  ⟨[⟨"content-length", " 05"⟩, ⟨"transfer-encoding", "gzip"⟩, ⟨"Server", "s"⟩,
    ⟨"Transfer-Encoding", "Chunked"⟩, ⟨"Content-Length", "5"⟩]⟩

theorem resolve_by_content_twofold :
    Rewritten twofold twofoldJoined ∧ Shuffled twofold twofoldSwapped ∧
      resolve twofold false = .ok .chunked ∧ resolve twofoldJoined false = .ok .chunked ∧
      resolve twofoldSwapped false = .ok .chunked := by
  have blank : ∀ c ∈ " ".toList, Text.isBlank c = true := List.all_eq_true.1 (by decide)
  have rewritten : Rewritten twofold twofoldJoined :=
    .joined (by decide) blank (by decide +kernel) (by decide)
  have shuffled : Shuffled twofold twofoldSwapped := .permuted (.swap "5" " 05" []) (by decide)
  have hok : resolve twofold false = .ok .chunked := by decide
  obtain ⟨-, -, -, same, also⟩ := resolve_by_content twofold false
  exact ⟨rewritten, shuffled, hok, (same _ rewritten).trans hok, (also _ shuffled _).2 hok⟩

end Framing
end HttpClient
