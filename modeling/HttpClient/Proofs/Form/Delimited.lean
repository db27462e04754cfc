import HttpClient.Proofs.Request.Head
set_option autoImplicit false

/-!
A reader of multipart bodies, as RFC 2046 has them. It takes the boundary from the media type,
divides the lines of the body at those that begin with it, and reads the fields of each part. Parts
that are written between delimiters are read back, in their order and with nothing added.
-/

namespace HttpClient

namespace Bytes

/-- What stands between line endings; there is always one more of it than there are endings. -/
def lines : Bytes → List Bytes
  | [] => [[]]
  | [b] => [[b]]
  | b :: c :: rest =>
    if b = cr ∧ c = lf then [] :: lines rest else (lines (c :: rest)).modifyHead (b :: ·)

variable {line : Bytes} {ls : List Bytes}

theorem ofText_append (s t : String) : ofText (s ++ t) = ofText s ++ ofText t := by
  simp [ofText]

theorem lines_ne_nil (bs : Bytes) : lines bs ≠ [] := by
  fun_induction lines bs with
  | case1 => simp
  | case2 => simp
  | case3 => simp
  | case4 b c rest _ ih => simpa using ih

theorem lines_append (bs rest : Bytes) : lines (bs ++ crlf ++ rest) = lines bs ++ lines rest := by
  fun_induction lines bs with
  | case1 => simp [crlf, lines]
  | case2 b => simp [crlf, lines, cr, lf]
  | case3 b c bs h ih =>
    obtain ⟨rfl, rfl⟩ := h
    simpa [lines] using ih
  | case4 b c bs h ih =>
    have hstep : lines (b :: c :: bs ++ crlf ++ rest) =
        (lines (c :: bs ++ crlf ++ rest)).modifyHead (b :: ·) := by
      simp [lines, h]
    rw [hstep, ih]
    cases hl : lines (c :: bs) with
    | nil => exact absurd hl (lines_ne_nil _)
    | cons line ls => rfl

theorem lines_of_unbroken (h : cr ∉ line) : lines line = [line] := by
  fun_induction lines line with
  | case1 => rfl
  | case2 => rfl
  | case3 b c rest hb => exact absurd (List.mem_cons.2 (.inl hb.1.symm)) h
  | case4 b c rest _ ih =>
    rw [ih fun hm => h (List.mem_cons_of_mem b hm)]
    rfl

theorem lines_joinLines (h : ∀ line ∈ ls, cr ∉ line) (rest : Bytes) :
    lines (joinLines ls ++ rest) = ls ++ lines rest := by
  induction ls with
  | nil => rfl
  | cons line ls ih =>
    obtain ⟨hline, hls⟩ := List.forall_mem_cons.1 h
    rw [joinLines_cons, List.append_assoc, lines_append, lines_of_unbroken hline, ih hls]
    rfl

theorem intercalate_cons (line : Bytes) (h : ls ≠ []) :
    crlf.intercalate (line :: ls) = line ++ crlf ++ crlf.intercalate ls := by
  cases ls with
  | nil => exact absurd rfl h
  | cons next ls => exact List.intercalate_cons_cons

theorem intercalate_lines (bs : Bytes) : crlf.intercalate (lines bs) = bs := by
  fun_induction lines bs with
  | case1 => rfl
  | case2 => rfl
  | case3 b c rest h ih =>
    obtain ⟨rfl, rfl⟩ := h
    rw [intercalate_cons [] (lines_ne_nil rest), ih]
    rfl
  | case4 b c rest _ ih =>
    cases hl : lines (c :: rest) with
    | nil => exact absurd hl (lines_ne_nil _)
    | cons line ls =>
      rw [hl] at ih
      rw [← ih]
      cases ls with
      | nil => simp
      | cons next ls => simp [List.intercalate_cons_cons]

end Bytes

namespace Multipart

def dash (boundary : String) : Bytes := Bytes.ofText ("--" ++ boundary)

/-- The lines in front of the first delimiter, the sections, and the lines behind the closing
delimiter, which goes on with two hyphens. -/
def divide (dash : Bytes) : List Bytes → Option (List Bytes × List (List Bytes) × List Bytes)
  | [] => none
  | line :: rest =>
    match line.dropPrefix? dash with
    | none =>
      (divide dash rest).map fun (first, later, epilogue) => (line :: first, later, epilogue)
    | some tail =>
      if (Bytes.ofText "--").isPrefixOf tail then some ([], [], rest)
      else (divide dash rest).map fun (first, later, epilogue) => ([], first :: later, epilogue)

/-- A field of a part. In its line there is no line break of any kind. -/
def readField (line : Bytes) : Option Field :=
  if Bytes.cr ∈ line ∨ Bytes.lf ∈ line then none
  else match Text.Utf8.decode line with
    | .error _ => none
    | .ok cs =>
      match Text.splitFirst ':' cs with
      | (name, some (' ' :: value)) => some ⟨String.ofList name, String.ofList value⟩
      | _ => none

/-- Names and values from what is divided at quotes: a value ends at the next one. -/
def readParameters : List (List Char) → Option (List (String × String))
  | [[]] => some []
  | key :: value :: rest =>
    match (key.dropPrefix? "; ".toList).map (Text.splitFirst '=') with
    | some (name, some []) =>
      (readParameters rest).map ((String.ofList name, String.ofList value) :: ·)
    | _ => none
  | _ => none

def readDisposition (value : String) : Option (List (String × String)) := do
  let parameters ← value.toList.dropPrefix? "form-data".toList
  readParameters (Text.splitOn '"' parameters)

/-- What a reader finds between two delimiters. -/
structure Part where
  disposition : List (String × String)
  fields : List Field
  content : Bytes
  deriving DecidableEq, Repr

def readPart (lines : List Bytes) : Option Part := do
  let fields ← (lines.takeWhile fun line => !line.isEmpty).mapM readField
  match fields, lines.dropWhile fun line => !line.isEmpty with
  | first :: others, _ :: content =>
    if first.name = "Content-Disposition" then
      return ⟨← readDisposition first.value, others, Bytes.crlf.intercalate content⟩
    else none
  | _, _ => none

def readQuoted : List Char → Option (List Char × List Char)
  | [] => none
  | '"' :: rest => some ([], rest)
  | '\\' :: c :: rest => (readQuoted rest).map fun (value, after) => (c :: value, after)
  | c :: rest => (readQuoted rest).map fun (value, after) => (c :: value, after)

def readValue : List Char → Option (List Char)
  | '"' :: cs =>
    match readQuoted cs with
    | some (value, []) => some value
    | _ => none
  | cs => if isToken (String.ofList cs) then some cs else none

/-- The boundary that a media type names as its one parameter. -/
def boundary? (mediaType : String) : Option String :=
  match Text.splitFirst ';' mediaType.toList with
  | (kind, some parameter) =>
    match Text.splitFirst '=' (parameter.dropWhile (· == ' ')) with
    | (name, some value) =>
      if Text.sameWord (String.ofList kind) "multipart/form-data" &&
          Text.sameWord (String.ofList name) "boundary" then (readValue value).map String.ofList
      else none
    | _ => none
  | _ => none

structure Message where
  preamble : List Bytes
  parts : List Part
  epilogue : List Bytes
  deriving DecidableEq, Repr

def read (mediaType : String) (body : Bytes) : Option Message := do
  let boundary ← boundary? mediaType
  let (preamble, sections, epilogue) ← divide (dash boundary) (Bytes.lines body)
  return ⟨preamble, ← sections.mapM readPart, epilogue⟩

section Division

variable {d : Bytes} {ls : List Bytes}

theorem dropPrefix?_append {α : Type} [BEq α] [LawfulBEq α] (front back : List α) :
    (front ++ back).dropPrefix? front = some back :=
  List.dropPrefix?_append_of_beq _ (beq_self_eq_true front)

theorem dropPrefix?_of_not {line : Bytes} (h : ¬d <+: line) : line.dropPrefix? d = none := by
  rw [Option.eq_none_iff_forall_ne_some]
  intro tail ht
  obtain ⟨front, rfl, hfront⟩ := List.dropPrefix?_eq_some_iff.1 ht
  rw [beq_iff_eq.1 hfront] at h
  exact h (List.prefix_append d tail)

theorem divide_lines (h : ∀ line ∈ ls, ¬d <+: line) (rest : List Bytes) :
    divide d (ls ++ rest) =
      (divide d rest).map fun (first, later, epilogue) => (ls ++ first, later, epilogue) := by
  induction ls with
  | nil => simp
  | cons line ls ih =>
    obtain ⟨hline, hls⟩ := List.forall_mem_cons.1 h
    rw [List.cons_append, divide, dropPrefix?_of_not hline]
    simp [ih hls, Function.comp_def]

theorem divide_delimiter (d : Bytes) (rest : List Bytes) :
    divide d (d :: rest) =
      (divide d rest).map fun (first, later, epilogue) => ([], first :: later, epilogue) := by
  have hprefix : d.dropPrefix? d = some [] := by simpa using dropPrefix?_append d []
  have hopen : (Bytes.ofText "--").isPrefixOf [] = false := by decide
  simp [divide, hprefix, hopen]

theorem divide_closing (d : Bytes) (rest : List Bytes) :
    divide d ((d ++ Bytes.ofText "--") :: rest) = some ([], [], rest) := by
  have hclosed : (Bytes.ofText "--").isPrefixOf (Bytes.ofText "--") = true := by decide
  simp [divide, dropPrefix?_append, hclosed]

theorem divide_sections {sections : List (List Bytes)}
    (h : ∀ ls ∈ sections, ∀ line ∈ ls, ¬d <+: line) (rest : List Bytes) :
    divide d (sections.flatMap (d :: ·) ++ (d ++ Bytes.ofText "--") :: rest) =
      some ([], sections, rest) := by
  induction sections with
  | nil => exact divide_closing d rest
  | cons ls sections ih =>
    obtain ⟨hls, hsections⟩ := List.forall_mem_cons.1 h
    rw [List.flatMap_cons, List.append_assoc, List.cons_append, divide_delimiter,
      divide_lines hls, ih hsections]
    simp

end Division

def writeParameter (parameter : String × String) : List Char :=
  ("; " ++ parameter.1 ++ "=").toList ++ '"' :: (parameter.2.toList ++ ['"'])

def writeDisposition (parameters : List (String × String)) : String :=
  "form-data" ++ String.ofList (parameters.flatMap writeParameter)

def Part.header (part : Part) : List Field :=
  ⟨"Content-Disposition", writeDisposition part.disposition⟩ :: part.fields

def writeField (field : Field) : Bytes := Bytes.ofChars field.text

def Part.lines (part : Part) : List Bytes :=
  part.header.map writeField ++ [] :: Bytes.lines part.content

/-- No name and no value ends early, and no field looks like a delimiter. -/
structure Part.Sound (part : Part) : Prop where
  parameters : ∀ p ∈ part.disposition, '=' ∉ p.1.toList ∧ '"' ∉ p.1.toList ∧ '"' ∉ p.2.toList
  names : ∀ f ∈ part.header, isToken f.name = true ∧ f.name.toList.head? ≠ some '-'
  unbroken : ∀ f ∈ part.header, '\r' ∉ f.text ∧ '\n' ∉ f.text

variable {part : Part} {field : Field} {boundary : String}

theorem readDisposition_writeDisposition {parameters : List (String × String)}
    (h : ∀ p ∈ parameters, '=' ∉ p.1.toList ∧ '"' ∉ p.1.toList ∧ '"' ∉ p.2.toList) :
    readDisposition (writeDisposition parameters) = some parameters := by
  have hprefix : (writeDisposition parameters).toList.dropPrefix? "form-data".toList =
      some (parameters.flatMap writeParameter) := by
    rw [writeDisposition, String.toList_append, dropPrefix?_append, String.toList_ofList]
  rw [readDisposition, hprefix, Option.bind_eq_bind, Option.bind_some]
  clear hprefix
  induction parameters with
  | nil => rfl
  | cons parameter rest ih =>
    obtain ⟨⟨hequals, hname, hvalue⟩, hrest⟩ := List.forall_mem_cons.1 h
    have hkey : (("; " ++ parameter.1 ++ "=").toList.dropPrefix? "; ".toList).map
        (Text.splitFirst '=') = some (parameter.1.toList, some []) := by
      simp only [String.toList_append, List.append_assoc, dropPrefix?_append]
      simpa using Text.splitFirst_append hequals []
    have hfree : '"' ∉ ("; " ++ parameter.1 ++ "=").toList := by simpa using hname
    rw [List.flatMap_cons, writeParameter, List.append_assoc, List.cons_append, List.append_assoc,
      List.singleton_append, Text.splitOn_append, Text.splitOn_append,
      Text.splitOn_of_not_mem hfree, Text.splitOn_of_not_mem hvalue, List.singleton_append,
      List.singleton_append, readParameters, hkey, ih hrest]
    simp

theorem not_mem_writeDisposition {c : Char} {parameters : List (String × String)}
    (hc : c ∉ "form-data; =\"".toList)
    (h : ∀ p ∈ parameters, c ∉ p.1.toList ∧ c ∉ p.2.toList) :
    c ∉ (writeDisposition parameters).toList := by
  have hparameters : ∀ p ∈ parameters, c ∉ writeParameter p := by
    intro p hp
    simp at hc
    simp [writeParameter, hc, h p hp]
  simp at hc
  simpa [writeDisposition, hc] using hparameters

theorem readField_writeField (hname : isToken field.name = true)
    (hline : '\r' ∉ field.text ∧ '\n' ∉ field.text) :
    readField (writeField field) = some field := by
  have hunbroken : ¬(Bytes.cr ∈ writeField field ∨ Bytes.lf ∈ writeField field) :=
    not_or.2 ⟨Bytes.cr_not_mem_ofChars hline.1, Bytes.lf_not_mem_ofChars hline.2⟩
  have hsplit : Text.splitFirst ':' field.text =
      (field.name.toList, some (' ' :: field.value.toList)) :=
    Text.splitFirst_append (not_mem_of_isToken hname (by decide)) _
  rw [readField, if_neg hunbroken, writeField, Text.Utf8.decode_ofChars]
  simp [hsplit]

theorem writeField_ne_nil (field : Field) : writeField field ≠ [] := by
  simp [writeField, Field.text, Bytes.ofChars, String.utf8EncodeChar_ne_nil]

theorem mapM_map {α β γ : Type} {f : α → β} {g : β → Option γ} {k : α → γ} {as : List α}
    (h : ∀ a ∈ as, g (f a) = some (k a)) : (as.map f).mapM g = some (as.map k) := by
  induction as with
  | nil => rfl
  | cons a as ih =>
    obtain ⟨ha, has⟩ := List.forall_mem_cons.1 h
    simp [List.mapM_cons, ha, ih has]

theorem readPart_lines (h : part.Sound) : readPart part.lines = some part := by
  have hfull : ∀ line ∈ part.header.map writeField, (!line.isEmpty) = true := by
    intro line hl
    obtain ⟨field, -, rfl⟩ := List.mem_map.1 hl
    simp [writeField_ne_nil]
  have hfields : (part.header.map writeField).mapM readField = some part.header := by
    simpa using mapM_map fun field hf =>
      readField_writeField (h.names field hf).1 (h.unbroken field hf)
  rw [readPart, Part.lines, List.takeWhile_append_of_pos hfull, List.dropWhile_append_of_pos hfull,
    List.takeWhile_cons_of_neg (by simp), List.dropWhile_cons_of_neg (by simp), List.append_nil,
    hfields]
  simp [Part.header, readDisposition_writeDisposition h.parameters, Bytes.intercalate_lines]

theorem dash_eq_cons (boundary : String) : ∃ rest, dash boundary = 45 :: rest := by
  have hhyphen : String.utf8EncodeChar '-' = [45] := by decide
  simp [dash, Bytes.ofText, hhyphen]

theorem not_delimiter (hname : isToken field.name = true)
    (hhead : field.name.toList.head? ≠ some '-') : ¬dash boundary <+: writeField field := by
  obtain ⟨rest, hrest⟩ := dash_eq_cons boundary
  cases hc : field.name.toList with
  | nil => simp [isToken, hc] at hname
  | cons c cs =>
    cases he : String.utf8EncodeChar c with
    | nil => exact absurd he (String.utf8EncodeChar_ne_nil)
    | cons b bs =>
      rw [hrest, writeField, Field.text, hc, List.cons_append, Bytes.ofChars_cons, he,
        List.cons_append, List.cons_prefix_cons]
      rintro ⟨rfl, -⟩
      have hmem : 45 ∈ String.utf8EncodeChar c := he ▸ List.mem_cons_self
      have hhyphen : c = '-' := Char.toNat_inj.1 (Bytes.eq_of_mem_encode hmem (by decide))
      rw [hc, hhyphen] at hhead
      exact hhead rfl

theorem not_delimiter_lines (h : part.Sound)
    (hcontent : ∀ line ∈ Bytes.lines part.content, ¬dash boundary <+: line) :
    ∀ line ∈ part.lines, ¬dash boundary <+: line := by
  obtain ⟨rest, hrest⟩ := dash_eq_cons boundary
  have hempty : ¬dash boundary <+: [] := by simp [hrest]
  refine List.forall_mem_append.2 ⟨fun line hl => ?_, List.forall_mem_cons.2 ⟨hempty, hcontent⟩⟩
  obtain ⟨field, hf, rfl⟩ := List.mem_map.1 hl
  exact not_delimiter (h.names field hf).1 (h.names field hf).2

def Part.octets (boundary : String) (part : Part) : Bytes :=
  Bytes.joinLines (dash boundary :: (part.header.map writeField ++ [[]])) ++ part.content ++
    Bytes.crlf

theorem lines_octets (h : part.Sound) (hb : '\r' ∉ boundary.toList) (rest : Bytes) :
    Bytes.lines (part.octets boundary ++ rest) =
      dash boundary :: part.lines ++ Bytes.lines rest := by
  have hdash : Bytes.cr ∉ dash boundary := Bytes.cr_not_mem_ofChars (by simpa using hb)
  have hlines : ∀ line ∈ dash boundary :: (part.header.map writeField ++ [[]]),
      Bytes.cr ∉ line := by
    refine List.forall_mem_cons.2 ⟨hdash, List.forall_mem_append.2 ⟨fun line hl => ?_, by simp⟩⟩
    obtain ⟨field, hf, rfl⟩ := List.mem_map.1 hl
    exact Bytes.cr_not_mem_ofChars (h.unbroken field hf).1
  rw [Part.octets, List.append_assoc, List.append_assoc, Bytes.lines_joinLines hlines,
    ← List.append_assoc, Bytes.lines_append]
  simp [Part.lines]

def octets (boundary : String) (parts : List Part) : Bytes :=
  parts.flatMap (Part.octets boundary) ++ (dash boundary ++ Bytes.ofText "--" ++ Bytes.crlf)

theorem lines_parts {parts : List Part} (h : ∀ part ∈ parts, part.Sound)
    (hb : '\r' ∉ boundary.toList) :
    Bytes.lines (octets boundary parts) =
      (parts.map Part.lines).flatMap (dash boundary :: ·) ++
        [dash boundary ++ Bytes.ofText "--", []] := by
  unfold octets
  induction parts with
  | nil =>
    have hunbroken : Bytes.cr ∉ dash boundary ++ Bytes.ofText "--" := by
      rw [dash, ← Bytes.ofText_append]
      exact Bytes.cr_not_mem_ofChars (by simpa using hb)
    have hlast := Bytes.lines_append (dash boundary ++ Bytes.ofText "--") []
    rw [List.append_nil, Bytes.lines_of_unbroken hunbroken] at hlast
    exact hlast
  | cons part parts ih =>
    obtain ⟨hpart, hparts⟩ := List.forall_mem_cons.1 h
    rw [List.flatMap_cons, List.append_assoc, lines_octets hpart hb, ih hparts]
    simp

/-- Sound parts are what a reader finds between the delimiters, if there is none in a content. -/
theorem read_octets {mediaType : String} {parts : List Part}
    (hm : boundary? mediaType = some boundary) (hb : '\r' ∉ boundary.toList)
    (hsound : ∀ part ∈ parts, part.Sound)
    (hcontent : ∀ part ∈ parts, ∀ line ∈ Bytes.lines part.content, ¬dash boundary <+: line) :
    read mediaType (octets boundary parts) = some ⟨[], parts, [[]]⟩ := by
  have hsections : ∀ ls ∈ parts.map Part.lines, ∀ line ∈ ls, ¬dash boundary <+: line := by
    intro ls hl
    obtain ⟨part, hp, rfl⟩ := List.mem_map.1 hl
    exact not_delimiter_lines (hsound part hp) (hcontent part hp)
  have hparts : (parts.map Part.lines).mapM readPart = some parts := by
    simpa using mapM_map fun part hp => readPart_lines (hsound part hp)
  rw [read, hm, lines_parts hsound hb]
  simp [divide_sections hsections, hparts]

theorem readQuoted_append {value : List Char} (h : '"' ∉ value ∧ '\\' ∉ value) (rest : List Char) :
    readQuoted (value ++ '"' :: rest) = some (value, rest) := by
  induction value with
  | nil => rfl
  | cons c value ih =>
    simp only [List.mem_cons, not_or] at h
    obtain ⟨⟨hquote, hv⟩, hslash, hv'⟩ := h
    rw [List.cons_append, readQuoted, ih ⟨hv, hv'⟩]
    · rfl
    · exact fun he => hquote he.symm
    · exact fun _ _ he => absurd he.symm hslash

end Multipart
end HttpClient
