import HttpClient.Proofs.Request.Bodies
import HttpClient.Proofs.Url.Plain
set_option autoImplicit false

/-!
A form of texts loses nothing. A reader of URL-encoded pairs finds every name where it appears
first, with all its values, and a name that has several values with an index for each of them.
-/

namespace HttpClient

namespace Percent

def unplus (b : UInt8) : UInt8 := if b = 43 then 32 else b

/-- Plus signs are read before escapes are, so that an escaped one stays. -/
def readForm (bs : Bytes) : String :=
  String.ofList (Text.Utf8.decodeLossy (decode (bs.map unplus)))

def readPair (bs : Bytes) : String × String :=
  (readForm (bs.takeWhile (· != 61)), readForm ((bs.dropWhile (· != 61)).drop 1))

/-- Pairs stand between ampersands; nothing between two of them is no pair. -/
def readPairs (bs : Bytes) : List (String × String) :=
  ((bs.splitOn 38).filter fun pair => !pair.isEmpty).map readPair

variable {b : UInt8} {c : Char} {d : Nat} {s : String}

def digitOctet (d : Nat) : UInt8 := .ofNat (upperDigit d).toNat

theorem read_digitOctet (hd : d < 16) :
    String.utf8EncodeChar (upperDigit d) = [digitOctet d] ∧
      unplus (digitOctet d) = digitOctet d ∧
      Numeral.digitValue? (Char.ofUInt8 (digitOctet d)) = some d := by
  have hall : ∀ d < 16, String.utf8EncodeChar (upperDigit d) = [digitOctet d] ∧
      unplus (digitOctet d) = digitOctet d ∧
      Numeral.digitValue? (Char.ofUInt8 (digitOctet d)) = some d := by decide
  exact hall d hd

theorem high_lt (b : UInt8) : b.toNat / 16 < 16 := by
  have := b.toNat_lt
  omega

theorem low_lt (b : UInt8) : b.toNat % 16 < 16 := Nat.mod_lt _ (by decide)

theorem decode_cons (hb : b ≠ 37) (bs : Bytes) : decode (b :: bs) = b :: decode bs := by
  match bs with
  | [] | [_] => rfl
  | _ :: _ :: _ => rw [decode, if_neg hb]

theorem decode_encodeOctet (b : UInt8) (rest : Bytes) :
    decode ((Bytes.ofChars (encodeOctet b)).map unplus ++ rest) = b :: decode rest := by
  obtain ⟨hhigh, hhigh', high⟩ := read_digitOctet (high_lt b)
  obtain ⟨hlow, hlow', low⟩ := read_digitOctet (low_lt b)
  have hpercent : String.utf8EncodeChar '%' = [37] ∧ unplus 37 = 37 := by decide
  have hvalue : 16 * (b.toNat / 16) + b.toNat % 16 = b.toNat := Nat.div_add_mod _ _
  simp [encodeOctet, hpercent, hhigh, hlow, hhigh', hlow', decode, high, low, hvalue]

theorem decode_encodeOctets (bs rest : Bytes) :
    decode ((Bytes.ofChars (bs.flatMap encodeOctet)).map unplus ++ rest) = bs ++ decode rest := by
  induction bs with
  | nil => rfl
  | cons b bs ih =>
    rw [List.flatMap_cons, Bytes.ofChars_append, List.map_append, List.append_assoc,
      decode_encodeOctet, ih, List.cons_append]

theorem encode_unreserved (h : unreserved c = true) :
    ∃ b : UInt8, String.utf8EncodeChar c = [b] ∧ b ≠ 37 ∧ unplus b = b := by
  have hc : c.toNat < 128 ∧ c.toNat ≠ 37 ∧ c.toNat ≠ 43 := by
    rw [unreserved, Bool.or_eq_true] at h
    rcases h with halnum | hmark
    · rw [Text.isAlphanum_iff] at halnum
      omega
    · have hmarks : c = '*' ∨ c = '-' ∨ c = '.' ∨ c = '_' := by simpa using hmark
      rcases hmarks with rfl | rfl | rfl | rfl <;> decide
  have hb : (UInt8.ofNat c.toNat).toNat = c.toNat := by
    rw [UInt8.toNat_ofNat']
    omega
  refine ⟨.ofNat c.toNat, ?_, fun he => hc.2.1 ?_, if_neg fun he => hc.2.2 ?_⟩
  · simpa using Bytes.ofChars_ascii (List.forall_mem_singleton.2 hc.1)
  · rw [← hb, he]
    rfl
  · rw [← hb, he]
    rfl

theorem encode_singleton (escaped : Char → Bool) (c : Char) :
    encode escaped [c] =
      if escaped c then (String.utf8EncodeChar c).flatMap encodeOctet else [c] := by
  simp [encode]

theorem decode_encodeForm (s : String) :
    decode ((Bytes.ofChars (encodeForm s)).map unplus) = Bytes.ofText s := by
  unfold encodeForm Bytes.ofText
  induction s.toList with
  | nil => rfl
  | cons c cs ih =>
    rw [List.flatMap_cons, Bytes.ofChars_append, List.map_append, Bytes.ofChars_cons]
    split
    · next hspace =>
      have hplus : (Bytes.ofChars ['+']).map unplus = [32] := by decide
      have hoctet : String.utf8EncodeChar ' ' = [32] := by decide
      rw [hplus, List.singleton_append, decode_cons (by decide), ih, hspace, hoctet]
      rfl
    · rw [encode_singleton]
      split
      · rw [decode_encodeOctets, ih]
      · next hplain =>
        obtain ⟨b, hencode, hb, hplus⟩ := encode_unreserved (by simpa using hplain)
        rw [Bytes.ofChars_cons, hencode, Bytes.ofChars_nil, List.append_nil, List.map_singleton,
          hplus, List.singleton_append, decode_cons hb, ih, List.singleton_append]

theorem readForm_encodeForm (s : String) : readForm (Bytes.ofChars (encodeForm s)) = s := by
  rw [readForm, decode_encodeForm, Bytes.ofText, Text.Utf8.decodeLossy, Text.Utf8.pieces_ofChars,
    List.map_map]
  simp [Function.comp_def]

theorem mem_encodeForm (h : c ∈ encodeForm s) : c = '+' ∨ c = '%' ∨ unreserved c = true := by
  have hdigit : ∀ d < 16, unreserved (upperDigit d) = true := by decide
  obtain ⟨plain, -, hc⟩ := List.mem_flatMap.1 h
  split at hc
  · exact .inl (List.mem_singleton.1 hc)
  · rw [encode_singleton] at hc
    split at hc
    · obtain ⟨octet, -, hc⟩ := List.mem_flatMap.1 hc
      simp only [encodeOctet, List.mem_cons, List.not_mem_nil, or_false] at hc
      rcases hc with rfl | rfl | rfl
      · exact .inr (.inl rfl)
      · exact .inr (.inr (hdigit _ (high_lt octet)))
      · exact .inr (.inr (hdigit _ (low_lt octet)))
    · next hplain =>
      rw [List.mem_singleton.1 hc]
      exact .inr (.inr (by simpa using hplain))

theorem not_mem_encodeForm (hb : b = 38 ∨ b = 61) : b ∉ Bytes.ofChars (encodeForm s) := by
  have hmark : ∀ c : Char, (c = '+' ∨ c = '%' ∨ unreserved c = true) → c ≠ '&' ∧ c ≠ '=' := by
    intro c hc
    constructor <;> rintro rfl <;> revert hc <;> decide
  rcases hb with rfl | rfl
  · exact Bytes.not_mem_ofChars (fun h => (hmark _ (mem_encodeForm h)).1 rfl) rfl (by decide)
  · exact Bytes.not_mem_ofChars (fun h => (hmark _ (mem_encodeForm h)).2 rfl) rfl (by decide)

def writePair (pair : String × String) : Bytes :=
  Bytes.ofChars (encodeForm pair.1) ++ 61 :: Bytes.ofChars (encodeForm pair.2)

theorem readPair_writePair (pair : String × String) : readPair (writePair pair) = pair := by
  have hname : ∀ b ∈ Bytes.ofChars (encodeForm pair.1), (b != 61) = true :=
    fun b hb => bne_iff_ne.2 fun he => not_mem_encodeForm (.inr he) hb
  rw [readPair, writePair, List.takeWhile_append_of_pos hname, List.dropWhile_append_of_pos hname]
  simp [readForm_encodeForm]

theorem not_mem_writePair (pair : String × String) : 38 ∉ writePair pair := by
  simp [writePair, not_mem_encodeForm]

theorem ofChars_formPairs (pairs : List (String × String)) :
    Bytes.ofChars (formPairs pairs) = [38].intercalate (pairs.map writePair) := by
  have hamp : String.utf8EncodeChar '&' = [38] := by decide
  have hequals : String.utf8EncodeChar '=' = [61] := by decide
  unfold formPairs
  induction pairs with
  | nil => rfl
  | cons pair pairs ih =>
    cases pairs with
    | nil => simp [writePair, hequals]
    | cons next pairs =>
      simp only [List.map_cons, List.intercalate_cons_cons] at ih ⊢
      simp [ih, writePair, hamp, hequals]

theorem readPairs_formPairs (pairs : List (String × String)) :
    readPairs (Bytes.ofChars (formPairs pairs)) = pairs := by
  rw [ofChars_formPairs, readPairs]
  cases pairs with
  | nil => rfl
  | cons pair pairs =>
    have hfull : ∀ written ∈ (pair :: pairs).map writePair, (!written.isEmpty) = true := by
      intro written hw
      obtain ⟨pair, -, rfl⟩ := List.mem_map.1 hw
      simp [writePair]
    have hsplit : ∀ written ∈ (pair :: pairs).map writePair, 38 ∉ written := by
      intro written hw
      obtain ⟨pair, -, rfl⟩ := List.mem_map.1 hw
      exact not_mem_writePair pair
    rw [List.splitOn_intercalate 38 hsplit (by simp), List.filter_eq_self.2 hfull, List.map_map]
    simp [Function.comp_def, readPair_writePair]

end Percent

namespace Form

def firstNames (pairs : List (String × String)) : List String := (pairs.map Prod.fst).eraseDups

def valuesOf (name : String) (pairs : List (String × String)) : List String :=
  (pairs.filter fun pair => pair.1 = name).map Prod.snd

/-- A name with one value is paired with it, and one with several is written with an index for each
of them, from zero on. -/
def numbered (pairs : List (String × String)) : List (String × String) :=
  (firstNames pairs).flatMap fun name =>
    match valuesOf name pairs with
    | [value] => [(name, value)]
    | values => values.mapIdx fun i value => (s!"{name}[{i}]", value)

variable {name value : String} {names : List String} {pairs : List (String × String)}

theorem mem_firstNames : name ∈ firstNames pairs ↔ name ∈ pairs.map Prod.fst := List.mem_eraseDups

theorem firstNames_concat (pairs : List (String × String)) (pair : String × String) :
    firstNames (pairs ++ [pair]) =
      if pair.1 ∈ firstNames pairs then firstNames pairs else firstNames pairs ++ [pair.1] := by
  rw [if_congr mem_firstNames rfl rfl, firstNames, List.map_append, List.eraseDups_append]
  by_cases h : pair.1 ∈ pairs.map Prod.fst
  · simp [h, List.removeAll, firstNames]
  · simp [h, List.removeAll, List.eraseDups_cons, firstNames]

theorem nodup_firstNames (pairs : List (String × String)) : (firstNames pairs).Nodup := by
  induction pairs using List.reverseRecOn with
  | nil => simp [firstNames]
  | append_singleton pairs pair ih =>
    rw [firstNames_concat]
    split
    · exact ih
    · next h =>
      have hother : ∀ name ∈ firstNames pairs, name ≠ pair.1 := fun _ hn =>
        ne_of_mem_of_not_mem hn h
      exact List.nodup_append.2 ⟨ih, by simp, by simpa using hother⟩

theorem valuesOf_concat (name : String) (pairs : List (String × String)) (pair : String × String) :
    valuesOf name (pairs ++ [pair]) =
      if pair.1 = name then valuesOf name pairs ++ [pair.2] else valuesOf name pairs := by
  by_cases h : pair.1 = name <;> simp [valuesOf, h]

theorem valuesOf_absent (h : name ∉ firstNames pairs) : valuesOf name pairs = [] := by
  have hall : ∀ pair ∈ pairs, ¬pair.1 = name := fun pair hp he =>
    h (mem_firstNames.2 (List.mem_map.2 ⟨pair, hp, he⟩))
  simp only [valuesOf, List.map_eq_nil_iff, List.filter_eq_nil_iff, decide_eq_true_eq]
  exact hall

theorem addValue_mem (hn : names.Nodup) (hm : name ∈ names) (values : String → List String) :
    addValue name value (names.map fun n => (n, values n)) =
      names.map fun n => (n, if name = n then values n ++ [value] else values n) := by
  induction names with
  | nil => cases hm
  | cons n names ih =>
    obtain ⟨hfresh, hrest⟩ := List.nodup_cons.1 hn
    rw [List.map_cons, List.map_cons, addValue]
    split
    · next h =>
      have hothers : ∀ m ∈ names, ¬name = m := fun m hm he => hfresh (h ▸ he ▸ hm)
      rw [if_pos h.symm]
      refine congrArg _ (List.map_congr_left fun m hm => ?_)
      rw [if_neg (hothers m hm)]
    · next h =>
      rw [if_neg (Ne.symm h), ih hrest ((List.mem_cons.1 hm).resolve_left (Ne.symm h))]

theorem addValue_fresh (hm : name ∉ names) (values : String → List String) :
    addValue name value (names.map fun n => (n, values n)) =
      names.map (fun n => (n, values n)) ++ [(name, [value])] := by
  induction names with
  | nil => rfl
  | cons n names ih =>
    obtain ⟨hne, hrest⟩ := List.ne_and_not_mem_of_not_mem_cons hm
    rw [List.map_cons, addValue, if_neg hne.symm, ih hrest, List.cons_append]

theorem group_eq (pairs : List (String × String)) :
    group pairs = (firstNames pairs).map fun name => (name, valuesOf name pairs) := by
  induction pairs using List.reverseRecOn with
  | nil => rfl
  | append_singleton pairs pair ih =>
    have hstep : group (pairs ++ [pair]) = addValue pair.1 pair.2 (group pairs) := by
      simp [group, List.foldl_append]
    rw [hstep, ih, firstNames_concat]
    simp only [valuesOf_concat]
    split
    · next h => exact addValue_mem (nodup_firstNames pairs) h _
    · next h =>
      have hothers : ∀ n ∈ firstNames pairs, ¬pair.1 = n := fun n hn he => h (he ▸ hn)
      rw [addValue_fresh h, List.map_append, List.map_singleton, if_pos rfl, valuesOf_absent h]
      refine congrArg (· ++ _) (List.map_congr_left fun n hn => ?_)
      rw [if_neg (hothers n hn)]

theorem indexed_eq (name : String) (values : List String) :
    indexed name values =
      match values with
      | [value] => [(name, value)]
      | values => values.mapIdx fun i value => (s!"{name}[{i}]", value) := by
  match values with
  | [] | [_] => rfl
  | first :: second :: rest =>
    simp only [indexed, List.mapIdx_eq_zipIdx_map, Numeral.decimal_eq_toString]
    simp [toString, String.append_assoc]

theorem urlEncoded_eq (f : Form) :
    f.urlEncoded = String.ofList (Percent.formPairs (numbered f.texts)) := by
  simp only [urlEncoded, group_eq, List.flatMap_map, indexed_eq, numbered]

/-- A form to which texts are added, each with its name and its media type. -/
def ofTexts (boundary : String) (texts : List (String × String × String)) : Form :=
  texts.foldl (fun f text => f.addText text.1 text.2.1 text.2.2) ⟨[], boundary⟩

theorem fields_ofTexts (boundary : String) (texts : List (String × String × String)) :
    (ofTexts boundary texts).fields = texts.map fun text => ⟨text.1, .text text.2.1, text.2.2⟩ := by
  unfold ofTexts
  induction texts using List.reverseRecOn with
  | nil => rfl
  | append_singleton texts text ih =>
    rw [List.foldl_append, List.map_append, ← ih]
    rfl

theorem stream_of_texts {f : Form} (h : f.isMultipart = false) :
    (RequestBody.form f).stream.failure = none ∧
      (RequestBody.form f).stream.chunks.flatten =
        Bytes.ofChars (Percent.formPairs (numbered f.texts)) := by
  have hsegments : f.segments = [.ofText f.urlEncoded] := by simp [segments, h]
  have hpresent : (RequestBody.form f).isPresent = true := by
    simp [RequestBody.isPresent, RequestBody.segments, hsegments, Segment.ofText, Segment.isPresent]
  obtain ⟨hfailure, hflatten, -⟩ := RequestBody.stream_present hpresent
  refine ⟨hfailure, hflatten.trans ?_⟩
  simp [RequestBody.octets, RequestBody.segments, hsegments, Segment.ofText, Segment.data,
    urlEncoded_eq, Bytes.ofText]

/-- Whatever its names and values are, a form of texts is sent in ASCII, and its pairs are read back
in full and in order. -/
theorem readPairs_ofTexts (boundary : String) (texts : List (String × String × String)) :
    let stream := (RequestBody.form (ofTexts boundary texts)).stream
    stream.failure = none ∧
      Percent.readPairs stream.chunks.flatten =
        numbered (texts.map fun text => (text.1, text.2.1)) ∧
      ∀ b ∈ stream.chunks.flatten, b.toNat < 128 := by
  have hfields := fields_ofTexts boundary texts
  have hplain : (ofTexts boundary texts).isMultipart = false := by
    simp [isMultipart, hfields, FormField.isFile]
  have htexts : (ofTexts boundary texts).texts = texts.map fun text => (text.1, text.2.1) := by
    simp [Form.texts, hfields, List.filterMap_map]
  obtain ⟨hfailure, hoctets⟩ := stream_of_texts hplain
  refine ⟨hfailure, ?_, ?_⟩
  · rw [hoctets, Percent.readPairs_formPairs, htexts]
  · have hascii : ∀ c ∈ Percent.formPairs (numbered (ofTexts boundary texts).texts),
        c.toNat < 128 := fun c hc => by
      have := Text.isPrintable_iff.1 (Url.printable_formPairs _ c hc)
      omega
    rw [hoctets, Bytes.ofChars_ascii hascii]
    intro b hb
    obtain ⟨c, hc, rfl⟩ := List.mem_map.1 hb
    rw [UInt8.toNat_ofNat']
    have := hascii c hc
    omega

example : numbered [("a", "1 2"), ("b", "x&y"), ("a", "3")] =
    [("a[0]", "1 2"), ("a[1]", "3"), ("b", "x&y")] := by decide

end Form
end HttpClient
