import HttpClient.Proofs.Fields.Codings
import Mathlib.Data.List.Induction
set_option autoImplicit false

/-!
Lists of codings: what the fields of a message list however the list is divided over them, how a
list that was written is read, and where one is split when codings are taken off its end.
-/

namespace HttpClient
namespace ContentCoding

/-- The elements of a list that count: empty ones do not. -/
def filled (elements : List String) : List String := elements.filter fun e => !e.toList.isEmpty

def wordsOf (value : String) : List String :=
  filled ((Text.splitOn ',' value.toList).map fun part => String.ofList (Text.trim part))

/-- The elements that count of all Content-Encoding fields, in the order of the fields. -/
def words (h : Fields) : List String := (h.values "Content-Encoding").flatMap wordsOf

theorem words_eq (h : Fields) : words h = filled (h.elements "Content-Encoding") := by
  rw [filled, Fields.elements, List.filter_flatMap]
  rfl

section Reading

variable {word : String} {elements : List String} {codings : List ContentCoding} {h : Fields}

theorem names_of_isToken (htoken : isToken word = true) :
    Names word (ofLower (Text.lower word)) := by
  refine ⟨htoken, ?_⟩
  by_cases hgzip : Text.lower word = "gzip" ∨ Text.lower word = "x-gzip"
  · rw [ofLower, if_pos hgzip]
    exact hgzip.imp (lower_eq_iff (by decide)).1 (lower_eq_iff (by decide)).1
  · by_cases hdeflate : Text.lower word = "deflate"
    · rw [ofLower, if_neg hgzip, if_pos hdeflate]
      exact (lower_eq_iff (by decide)).1 hdeflate
    · by_cases hidentity : Text.lower word = "identity"
      · rw [ofLower, if_neg hgzip, if_neg hdeflate, if_pos hidentity]
        exact (lower_eq_iff (by decide)).1 hidentity
      · rw [ofLower, if_neg hgzip, if_neg hdeflate, if_neg hidentity]
        rw [lower_eq_iff (by decide), lower_eq_iff (by decide), not_or] at hgzip
        rw [lower_eq_iff (by decide)] at hdeflate hidentity
        simp [hgzip, hdeflate, hidentity]

theorem read_of_not_isToken (hbad : isToken word = false) : read word = .error .notToken := by
  rw [read, hbad]
  rfl

theorem mapM_read_cases (elements : List String) :
    (∃ codings, List.Forall₂ Names elements codings ∧ elements.mapM read = .ok codings) ∨
      (∃ word ∈ elements, isToken word = false) ∧ elements.mapM read = .error .notToken := by
  induction elements with
  | nil => exact .inl ⟨[], .nil, rfl⟩
  | cons word elements ih =>
    cases htoken : isToken word with
    | false =>
      refine .inr ⟨⟨word, List.mem_cons_self, htoken⟩, ?_⟩
      rw [List.mapM_cons, read_of_not_isToken htoken]
      rfl
    | true =>
      have hname := names_of_isToken htoken
      rcases ih with ⟨codings, names, -⟩ | ⟨⟨bad, hmem, hbad⟩, herror⟩
      · exact .inl ⟨_, .cons hname names, mapM_read (.cons hname names)⟩
      · refine .inr ⟨⟨bad, List.mem_cons_of_mem _ hmem, hbad⟩, ?_⟩
        rw [List.mapM_cons, read_of_names hname, herror]
        rfl

theorem isToken_of_names (names : List.Forall₂ Names elements codings) :
    ∀ word ∈ elements, isToken word = true := by
  induction names with
  | nil => simp
  | cons hname _ ih => exact List.forall_mem_cons.2 ⟨hname.1, ih⟩

theorem readElements_of_not_isToken (hbad : ∃ word ∈ filled elements, isToken word = false) :
    readElements elements = .error .notToken := by
  rcases mapM_read_cases (filled elements) with ⟨codings, names, -⟩ | ⟨-, herror⟩
  · obtain ⟨word, hmem, hword⟩ := hbad
    rw [isToken_of_names names word hmem] at hword
    cases hword
  · rw [filled] at herror
    unfold readElements
    rw [herror]
    rfl

theorem readElements_of_nil (hnil : filled elements = []) :
    readElements elements = .error .empty := by
  rw [filled] at hnil
  unfold readElements
  rw [hnil]
  rfl

theorem filled_cases (elements : List String) :
    (∃ word ∈ filled elements, isToken word = false) ∨ filled elements = [] ∨
      ∃ codings, codings ≠ [] ∧ List.Forall₂ Names (filled elements) codings := by
  rcases mapM_read_cases (filled elements) with ⟨codings, names, -⟩ | ⟨hbad, -⟩
  · cases codings with
    | nil => exact .inr (.inl (List.forall₂_nil_right_iff.1 names))
    | cons c codings => exact .inr (.inr ⟨c :: codings, List.cons_ne_nil _ _, names⟩)
  · exact .inl hbad

theorem readElements_eq_ok_iff : readElements elements = .ok codings ↔
    codings ≠ [] ∧ List.Forall₂ Names (filled elements) codings := by
  refine ⟨fun hread => ?_, fun ⟨hne, names⟩ => readElements_of_names names hne⟩
  rcases filled_cases elements with hbad | hnil | ⟨listed, hne, names⟩
  · rw [readElements_of_not_isToken hbad] at hread
    cases hread
  · rw [readElements_of_nil hnil] at hread
    cases hread
  · rw [readElements_of_names names hne] at hread
    cases hread
    exact ⟨hne, names⟩

theorem readElements_eq_error_iff {error : CodingError} : readElements elements = .error error ↔
    error = .notToken ∧ (∃ word ∈ filled elements, isToken word = false) ∨
      error = .empty ∧ filled elements = [] := by
  constructor
  · intro hread
    rcases filled_cases elements with hbad | hnil | ⟨listed, hne, names⟩
    · rw [readElements_of_not_isToken hbad] at hread
      cases hread
      exact .inl ⟨rfl, hbad⟩
    · rw [readElements_of_nil hnil] at hread
      cases hread
      exact .inr ⟨rfl, hnil⟩
    · rw [readElements_of_names names hne] at hread
      cases hread
  · rintro (⟨rfl, hbad⟩ | ⟨rfl, hnil⟩)
    · exact readElements_of_not_isToken hbad
    · exact readElements_of_nil hnil

theorem ofFields_of_missing (hmissing : h.values "Content-Encoding" = []) :
    ofFields h = .ok none := by
  simp [ofFields, hmissing]

theorem words_of_missing (hmissing : h.values "Content-Encoding" = []) : words h = [] := by
  rw [words, hmissing]
  rfl

theorem ofFields_of_present (hpresent : h.values "Content-Encoding" ≠ []) :
    ofFields h = (readElements (h.elements "Content-Encoding")).map some := by
  unfold ofFields
  simp only [List.isEmpty_iff, hpresent, if_false]
  rw [readList_intercalate hpresent, ← Fields.elements]

theorem ofFields_eq_none_iff : ofFields h = .ok none ↔ h.values "Content-Encoding" = [] := by
  refine ⟨fun hread => ?_, ofFields_of_missing⟩
  by_contra hpresent
  rw [ofFields_of_present hpresent] at hread
  cases hr : readElements (h.elements "Content-Encoding") <;> simp [hr, Except.map] at hread

theorem ofFields_eq_some_iff : ofFields h = .ok (some codings) ↔
    codings ≠ [] ∧ List.Forall₂ Names (words h) codings := by
  rw [words_eq]
  refine ⟨fun hread => ?_, fun ⟨hne, listed⟩ => ofFields_of_listed listed hne⟩
  by_cases hmissing : h.values "Content-Encoding" = []
  · rw [ofFields_of_missing hmissing] at hread
    cases hread
  · rw [ofFields_of_present hmissing] at hread
    cases hr : readElements (h.elements "Content-Encoding") with
    | error error => simp [hr, Except.map] at hread
    | ok read =>
      obtain rfl : read = codings := by simpa [hr, Except.map] using hread
      exact readElements_eq_ok_iff.1 hr

theorem ofFields_eq_error_iff {error : CodingError} : ofFields h = .error error ↔
    h.values "Content-Encoding" ≠ [] ∧
      readElements (h.elements "Content-Encoding") = .error error := by
  by_cases hmissing : h.values "Content-Encoding" = []
  · simp [ofFields_of_missing hmissing, hmissing]
  · rw [ofFields_of_present hmissing]
    cases hr : readElements (h.elements "Content-Encoding") <;> simp [Except.map, hmissing]

theorem ofFields_eq_notToken_iff :
    ofFields h = .error .notToken ↔ ∃ word ∈ words h, isToken word = false := by
  rw [ofFields_eq_error_iff, readElements_eq_error_iff, ← words_eq]
  constructor
  · rintro ⟨-, ⟨-, hbad⟩ | ⟨herror, -⟩⟩
    · exact hbad
    · cases herror
  · rintro ⟨word, hmem, hbad⟩
    refine ⟨fun hmissing => ?_, .inl ⟨rfl, word, hmem, hbad⟩⟩
    rw [words_of_missing hmissing] at hmem
    cases hmem

theorem ofFields_eq_empty_iff : ofFields h = .error .empty ↔
    h.values "Content-Encoding" ≠ [] ∧ words h = [] := by
  rw [ofFields_eq_error_iff, readElements_eq_error_iff, ← words_eq]
  simp

end Reading

/-- The lists that there ever are: those that were read, and what stays when codings are taken off
one. -/
inductive Parsed : List ContentCoding → Prop where
  | value {text : String} {codings : List ContentCoding} (read : readList text = .ok codings) :
      Parsed codings
  | fields {h : Fields} {codings : List ContentCoding} (read : ofFields h = .ok (some codings)) :
      Parsed codings
  | rest {supported codings : List ContentCoding} (whole : Parsed codings)
      (stays : (split supported codings).2 ≠ []) : Parsed (split supported codings).2

section Splitting

variable {supported codings undone kept removed : List ContentCoding} {c : ContentCoding}

theorem Parsed.names (parsed : Parsed codings) : codings ≠ [] ∧ ∀ c ∈ codings, Names c.name c := by
  induction parsed with
  | value read =>
    obtain ⟨hne, names⟩ := readElements_eq_ok_iff.1 read
    exact ⟨hne, names_of_words names⟩
  | fields read =>
    obtain ⟨hne, listed⟩ := ofFields_eq_some_iff.1 read
    exact ⟨hne, names_of_words listed⟩
  | @rest supported codings whole stays ih =>
    obtain ⟨removed, hwhole, -⟩ := exists_removed supported codings
    refine ⟨stays, fun c hc => ih.2 c ?_⟩
    rw [hwhole]
    exact List.mem_append_left removed hc

theorem split_concat (supported codings : List ContentCoding) (c : ContentCoding) :
    split supported (codings ++ [c]) =
      if c = .identity then split supported codings
      else if c ∈ supported then (c :: (split supported codings).1, (split supported codings).2)
      else ([], codings ++ [c]) := by
  by_cases hid : c = .identity
  · simp [split, removable, hid]
  · by_cases hs : c ∈ supported
    · simp [split, removable, hid, hs]
    · simp [split, removable, hid, hs]

/-- Where a list is split: the codings that stay end with one that cannot be taken off, and those
behind them are undone from the last one back, identity passed over. -/
structure Splits (supported codings undone kept removed : List ContentCoding) : Prop where
  whole : codings = kept ++ removed
  removable : ∀ c ∈ removed, c = .identity ∨ c ∈ supported
  undone : undone = removed.reverse.filter (· != .identity)
  stuck : ∀ c, kept.getLast? = some c → c ≠ .identity ∧ c ∉ supported

theorem split_of_stuck (stuck : ∀ c, kept.getLast? = some c → c ≠ .identity ∧ c ∉ supported) :
    split supported kept = ([], kept) := by
  cases kept using List.reverseRecOn with
  | nil => rfl
  | append_singleton kept c =>
    obtain ⟨hid, hs⟩ := stuck c (by simp)
    rw [split_concat, if_neg hid, if_neg hs]

theorem exists_splits (supported codings : List ContentCoding) :
    ∃ removed, Splits supported codings (split supported codings).1 (split supported codings).2
      removed := by
  obtain ⟨removed, whole, undone, hremoved, hkept⟩ := exists_removed supported codings
  refine ⟨removed, whole, fun c hc => removable_iff.1 (hremoved c hc), undone, fun c hc => ?_⟩
  have hstuck : ¬(c = .identity ∨ c ∈ supported) := by
    rw [← removable_iff, hkept c hc]
    exact Bool.false_ne_true
  exact not_or.1 hstuck

theorem Splits.split_eq (h : Splits supported codings undone kept removed) :
    split supported codings = (undone, kept) := by
  obtain ⟨rfl, hremoved, rfl, stuck⟩ := h
  -- From the end, as the codings are taken off.
  induction removed using List.reverseRecOn with
  | nil => simpa using split_of_stuck stuck
  | append_singleton removed c ih =>
    obtain ⟨hfront, hc⟩ := List.forall_mem_append.1 hremoved
    rw [← List.append_assoc, split_concat, ih hfront]
    rcases hc c List.mem_cons_self with rfl | hs
    · simp
    · by_cases hid : c = .identity
      · simp [hid]
      · simp [hid, hs]

theorem split_eq_iff : split supported codings = (undone, kept) ↔
    ∃ removed, Splits supported codings undone kept removed := by
  refine ⟨fun hsplit => ?_, fun ⟨removed, h⟩ => h.split_eq⟩
  obtain ⟨removed, h⟩ := exists_splits supported codings
  rw [hsplit] at h
  exact ⟨removed, h⟩

example : split [.gzip, .deflate] [.gzip, .other "br", .deflate] =
    ([.deflate], [.gzip, .other "br"]) := by decide

end Splitting

/-- What holds of lists of codings. Fields are read as what their elements name, in order; they are
refused for an element that is no token, or because there is no element at all. A list that was read
is written so that it is read again. It can be split in one place only, and then not once more. -/
theorem list_laws (h : Fields) (supported : List ContentCoding) {codings : List ContentCoding}
    (parsed : Parsed codings) :
    ((ofFields h = .ok none ↔ h.values "Content-Encoding" = []) ∧
      (∀ listed, ofFields h = .ok (some listed) ↔
        listed ≠ [] ∧ List.Forall₂ Names (words h) listed) ∧
      (ofFields h = .error .notToken ↔ ∃ word ∈ words h, isToken word = false) ∧
      (ofFields h = .error .empty ↔ h.values "Content-Encoding" ≠ [] ∧ words h = [])) ∧
    readList (render codings) = .ok codings ∧
    (∀ undone kept, split supported codings = (undone, kept) ↔
      ∃ removed, Splits supported codings undone kept removed) ∧
    split supported (split supported codings).2 = ([], (split supported codings).2) := by
  obtain ⟨hne, hnames⟩ := parsed.names
  obtain ⟨removed, hsplits⟩ := exists_splits supported codings
  refine ⟨⟨ofFields_eq_none_iff, fun listed => ofFields_eq_some_iff, ofFields_eq_notToken_iff,
    ofFields_eq_empty_iff⟩, readList_render hnames hne, fun undone kept => split_eq_iff, ?_⟩
  exact split_of_stuck hsplits.stuck

/-- Two fields with an empty element, blanks, another name of a coding and one that is unknown. -/
def layered : Fields :=
  ⟨[⟨"Content-Encoding", "GZIP, ,br"⟩, ⟨"content-encoding", "\tIdentity,X-GZIP "⟩]⟩

theorem list_laws_layered :
    Parsed [.gzip, .other "br", .identity, .gzip] ∧
    readList "gzip, br, identity, gzip" = .ok [.gzip, .other "br", .identity, .gzip] ∧
    split [.gzip] [.gzip, .other "br", .identity, .gzip] = ([.gzip], [.gzip, .other "br"]) := by
  have parsed : Parsed [.gzip, .other "br", .identity, .gzip] :=
    @Parsed.fields layered _ (by decide +kernel)
  have laws := list_laws layered [.gzip] parsed
  have splits : Splits [.gzip] [.gzip, .other "br", .identity, .gzip] [.gzip]
      [.gzip, .other "br"] [.identity, .gzip] :=
    ⟨rfl, by simp, by decide, by simp⟩
  exact ⟨parsed, laws.2.1, (laws.2.2.1 _ _).2 ⟨_, splits⟩⟩

end ContentCoding
end HttpClient
