import HttpClient.Proofs.Form.Delimited
import HttpClient.Proofs.Request.Bodies
set_option autoImplicit false

/-!
A form with files is read back as it was given. A reader that knows the media type and the octets
finds one part for each field, in their order, and in each part the lines that were meant for it,
the names, and the content as it was.
-/

namespace HttpClient

namespace Form

/-- The ways to come by a form. -/
inductive Built : Form → Prop where
  | withBoundary {boundary : String} {f : Form} (h : Form.withBoundary? boundary = some f) : Built f
  | ofSeed {seed : Bytes} (h : seed.length = 16) : Built (.ofSeed seed)
  | addText {f : Form} (built : Built f) (name value contentType : String) :
    Built (f.addText name value contentType)
  | addFile {f : Form} (built : Built f) (name : String) (file : FileRef) (contentType : String) :
    Built (f.addFile name file contentType)

theorem isBoundary_ofSeed {seed : Bytes} (h : seed.length = 16) :
    isBoundary (ofSeed seed).boundary = true := by
  have hdigit : ∀ d < 16, isBoundaryChar (Numeral.digitChar d) = true ∧
      Numeral.digitChar d ≠ ' ' := by decide
  have hall : ∀ c ∈ (ofSeed seed).boundary.toList, isBoundaryChar c = true ∧ c ≠ ' ' := by
    intro c hc
    simp only [ofSeed, String.toList_ofList, List.mem_flatMap] at hc
    obtain ⟨b, -, hc⟩ := hc
    have := b.toNat_lt
    simp only [List.mem_cons, List.not_mem_nil, or_false] at hc
    rcases hc with rfl | rfl
    · exact hdigit _ (by omega)
    · exact hdigit _ (by omega)
  have hlength : (ofSeed seed).boundary.toList.length = 32 := by simp [ofSeed, h]
  have hne : (ofSeed seed).boundary.toList ≠ [] := by
    rw [← List.length_pos_iff, hlength]
    decide
  have hlast : (ofSeed seed).boundary.toList.getLast? ≠ some ' ' := fun he =>
    (hall _ (List.mem_of_getLast? he)).2 rfl
  simp only [isBoundary, Bool.and_eq_true, List.all_eq_true, Bool.not_eq_true',
    List.isEmpty_eq_false_iff, decide_eq_true_eq, bne_iff_ne]
  exact ⟨⟨⟨fun c hc => (hall c hc).1, hne⟩, by omega⟩, hlast⟩

theorem Built.isBoundary {f : Form} (h : f.Built) : Form.isBoundary f.boundary = true := by
  induction h with
  | withBoundary h =>
    unfold withBoundary? at h
    split at h
    · next hvalid =>
      cases h
      exact hvalid
    · cases h
  | ofSeed h => exact isBoundary_ofSeed h
  | addText _ _ _ _ ih => exact ih
  | addFile _ _ _ _ ih => exact ih

variable {s : String} {c : Char} {f : Form}

theorem ne_empty_of_isBoundary (h : isBoundary s = true) : s.toList ≠ [] := by
  simp only [isBoundary, Bool.and_eq_true, Bool.not_eq_true', List.isEmpty_eq_false_iff] at h
  exact h.1.1.2

theorem not_mem_of_isBoundary (h : isBoundary s = true) (hc : isBoundaryChar c = false) :
    c ∉ s.toList := by
  intro hm
  simp only [isBoundary, Bool.and_eq_true, List.all_eq_true] at h
  rw [h.1.1.1 c hm] at hc
  cases hc

def writeBoundary (boundary : String) : String :=
  if boundary.toList.all isTokenChar then boundary else "\"" ++ boundary ++ "\""

theorem readValue_writeBoundary (h : isBoundary s = true) :
    Multipart.readValue (writeBoundary s).toList = some s.toList := by
  have hquote : '"' ∉ s.toList := not_mem_of_isBoundary h (by decide)
  have hslash : '\\' ∉ s.toList := not_mem_of_isBoundary h (by decide)
  unfold writeBoundary
  split
  · next hchars =>
    have htoken : isToken s = true := by simp [isToken, hchars, ne_empty_of_isBoundary h]
    rw [Multipart.readValue, String.ofList_toList, if_pos htoken]
    exact fun cs he => hquote (he ▸ List.mem_cons_self)
  · have hspelled : ("\"" ++ s ++ "\"").toList = '"' :: (s.toList ++ ['"']) := by simp
    rw [hspelled, Multipart.readValue, Multipart.readQuoted_append ⟨hquote, hslash⟩]

theorem boundary?_contentType (hm : f.isMultipart = true) (hb : isBoundary f.boundary = true) :
    Multipart.boundary? f.contentType = some f.boundary := by
  have hspelled : f.contentType.toList = "multipart/form-data".toList ++
      ';' :: ' ' :: ("boundary".toList ++ '=' :: (writeBoundary f.boundary).toList) := by
    unfold contentType writeBoundary
    by_cases htoken : f.boundary.toList.all isTokenChar <;> simp [hm, htoken]
  have hkind : Text.splitFirst ';' f.contentType.toList = ("multipart/form-data".toList,
      some (' ' :: ("boundary".toList ++ '=' :: (writeBoundary f.boundary).toList))) := by
    rw [hspelled]
    exact Text.splitFirst_append (by decide) _
  have hequals : '=' ∉ "boundary".toList := by decide
  have hname : Text.splitFirst '=' ((' ' :: ("boundary".toList ++
      '=' :: (writeBoundary f.boundary).toList)).dropWhile (· == ' ')) =
        ("boundary".toList, some (writeBoundary f.boundary).toList) :=
    Text.splitFirst_append hequals _
  have hwords : (Text.sameWord (String.ofList "multipart/form-data".toList) "multipart/form-data" &&
      Text.sameWord (String.ofList "boundary".toList) "boundary") = true := by decide
  simp only [Multipart.boundary?, hkind, hname, hwords, if_true, readValue_writeBoundary hb]
  simp

end Form

namespace FormField

/-- The part that is to be found for a field of the form. A file says of what kind it is, even if
with nothing. -/
def toPart (field : FormField) : Multipart.Part :=
  match field.value with
  | .text s =>
    { disposition := [("name", Form.quoteFree field.name)]
      fields := if field.contentType = "" then [] else [⟨"Content-Type", field.contentType⟩]
      content := Bytes.ofText s }
  | .file file =>
    { disposition := [("name", Form.quoteFree field.name), ("filename", Form.quoteFree file.name)]
      fields := [⟨"Content-Type", field.contentType⟩, ⟨"Content-Transfer-Encoding", "binary"⟩]
      content := file.content.getD [] }

variable {field : FormField} {s : String} {c : Char}

theorem data_content (field : FormField) : (Form.content field).data = field.toPart.content := by
  cases hv : field.value <;> simp [Form.content, toPart, hv, Segment.ofText, Segment.data]

theorem ofText_partHeader (field : FormField) :
    Bytes.ofText (Form.partHeader field) =
      Bytes.joinLines (field.toPart.header.map Multipart.writeField ++ [[]]) := by
  have hcrlf : Bytes.crlf = Bytes.ofChars ['\r', '\n'] := by decide
  cases hv : field.value with
  | text s =>
    by_cases ht : field.contentType = "" <;>
      simp [Form.partHeader, fileName, hv, ht, toPart, Multipart.Part.header, Multipart.writeField,
        Multipart.writeDisposition, Multipart.writeParameter, Field.text, Bytes.joinLines,
        Bytes.ofText, hcrlf]
  | file file =>
    simp [Form.partHeader, fileName, hv, toPart, Multipart.Part.header, Multipart.writeField,
      Multipart.writeDisposition, Multipart.writeParameter, Field.text, Bytes.joinLines,
      Bytes.ofText, hcrlf]

theorem octets_part (boundary : String) (field : FormField) :
    (Form.part boundary field).flatMap Segment.data = field.toPart.octets boundary := by
  have hcrlf : Bytes.ofText "\r\n" = Bytes.crlf := by decide
  have hdash : Bytes.ofText ("--" ++ boundary ++ "\r\n") =
      Multipart.dash boundary ++ Bytes.crlf := by
    rw [Bytes.ofText_append, hcrlf, Multipart.dash]
  simp [Form.part, Segment.ofText, Segment.data, hdash, hcrlf, ofText_partHeader,
    Multipart.Part.octets, Bytes.joinLines_cons, ← data_content]

theorem mem_disposition {p : String × String} (h : p ∈ field.toPart.disposition) :
    p = ("name", Form.quoteFree field.name) ∨
      ∃ name ∈ field.fileName, p = ("filename", Form.quoteFree name) := by
  cases hv : field.value <;> simpa [toPart, fileName, hv] using h

theorem mem_fields {f : Field} (h : f ∈ field.toPart.fields) :
    f = ⟨"Content-Type", field.contentType⟩ ∨ f = ⟨"Content-Transfer-Encoding", "binary"⟩ := by
  cases hv : field.value with
  | text s =>
    by_cases ht : field.contentType = "" <;> simp [toPart, hv, ht] at h
    exact .inl h
  | file file => simpa [toPart, hv] using h

theorem mem_quoteFree (h : c ∈ (Form.quoteFree s).toList) :
    c ∈ s.toList ∧ c ≠ '"' ∨ c = '%' ∨ c = '2' := by
  simp only [Form.quoteFree, String.toList_ofList, List.mem_flatMap] at h
  obtain ⟨b, hb, hc⟩ := h
  split at hc
  · exact .inr (by simpa using hc)
  · next hquote =>
    rw [List.mem_singleton.1 hc]
    exact .inl ⟨hb, hquote⟩

theorem quote_not_mem (s : String) : '"' ∉ (Form.quoteFree s).toList := by
  intro h
  rcases mem_quoteFree h with ⟨-, hquote⟩ | hquote | hquote
  · exact hquote rfl
  · exact absurd hquote (by decide)
  · exact absurd hquote (by decide)

theorem not_mem_quoteFree (hs : c ∉ s.toList) (hc : c ≠ '%' ∧ c ≠ '2') :
    c ∉ (Form.quoteFree s).toList := by
  intro h
  rcases mem_quoteFree h with ⟨hm, -⟩ | rfl | rfl
  · exact hs hm
  · exact hc.1 rfl
  · exact hc.2 rfl

theorem not_mem_of_hasLineBreak (h : Form.hasLineBreak s = false) (hc : c = '\r' ∨ c = '\n') :
    c ∉ s.toList := by
  intro hm
  have hany : Form.hasLineBreak s = true := List.any_eq_true.2 ⟨c, hm, by simpa using hc⟩
  rw [h] at hany
  cases hany

theorem not_mem_of_checkPart (h : Form.checkPart field = .ok ()) (hc : c = '\r' ∨ c = '\n') :
    c ∉ field.name.toList ∧ (∀ name ∈ field.fileName, c ∉ name.toList) ∧
      c ∉ field.contentType.toList := by
  have hchar : isValueChar c = false := by rcases hc with rfl | rfl <;> decide
  by_cases hbreak : (Form.hasLineBreak field.name ||
      Form.hasLineBreak (field.fileName.getD "")) = true
  · have herror : Form.checkPart field = .error (.fieldValue "Content-Disposition") := by
      simp [Form.checkPart, hbreak, bind, Except.bind, throw, throwThe, MonadExceptOf.throw]
    rw [herror] at h
    cases h
  · rw [Bool.or_eq_true, not_or, Bool.not_eq_true, Bool.not_eq_true] at hbreak
    refine ⟨not_mem_of_hasLineBreak hbreak.1 hc, fun name hn => ?_, ?_⟩
    · rw [Option.mem_def.1 hn] at hbreak
      exact not_mem_of_hasLineBreak hbreak.2 hc
    · by_cases hempty : field.contentType = ""
      · simp [hempty]
      · have hvalid : Field.check ⟨"Content-Type", field.contentType⟩ = .ok () := by
          simpa [Form.checkPart, hbreak, hempty] using h
        exact not_mem_of_isValue ((Field.check_eq_ok_iff _).1 hvalid).2 hchar

theorem name_header {f : Field} (hf : f ∈ field.toPart.header) :
    isToken f.name = true ∧ f.name.toList.head? ≠ some '-' := by
  have hnames : ∀ name ∈ ["Content-Disposition", "Content-Type", "Content-Transfer-Encoding"],
      isToken name = true ∧ name.toList.head? ≠ some '-' := by decide
  rcases List.mem_cons.1 hf with rfl | hf
  · exact hnames _ (by simp)
  rcases mem_fields hf with rfl | rfl
  · exact hnames _ (by simp)
  · exact hnames _ (by simp)

/-- No name, file name or kind that passes the check ends a line of its part. -/
theorem not_mem_header {f : Field} (h : Form.checkPart field = .ok ())
    (hf : f ∈ field.toPart.header) (hc : c = '\r' ∨ c = '\n') : c ∉ f.text := by
  have hother : isTokenChar c = false ∧ c ≠ '%' ∧ c ≠ '2' ∧ c ≠ ':' ∧ c ≠ ' ' := by
    rcases hc with rfl | rfl <;> decide
  have hfixed : c ∉ "form-data; =\"".toList ∧ c ∉ "name".toList ∧ c ∉ "filename".toList ∧
      c ∉ "binary".toList := by
    rcases hc with rfl | rfl <;> decide
  obtain ⟨htoken, hpercent, htwo, hmarks⟩ := hother
  obtain ⟨hmark, hkey, hfileKey, hbinary⟩ := hfixed
  obtain ⟨hname, hfile, hkind⟩ := not_mem_of_checkPart h hc
  have hvalue : c ∉ f.value.toList := by
    rcases List.mem_cons.1 hf with rfl | hf
    · refine Multipart.not_mem_writeDisposition hmark fun p hp => ?_
      rcases mem_disposition hp with rfl | ⟨name, hn, rfl⟩
      · exact ⟨hkey, not_mem_quoteFree hname ⟨hpercent, htwo⟩⟩
      · exact ⟨hfileKey, not_mem_quoteFree (hfile name hn) ⟨hpercent, htwo⟩⟩
    rcases mem_fields hf with rfl | rfl
    · exact hkind
    · exact hbinary
  simp [Field.text, not_mem_of_isToken (name_header hf).1 htoken, hmarks, hvalue]

theorem sound_toPart (h : Form.checkPart field = .ok ()) : field.toPart.Sound where
  parameters p hp := by
    have hname : '=' ∉ "name".toList ∧ '"' ∉ "name".toList := by decide
    have hfile : '=' ∉ "filename".toList ∧ '"' ∉ "filename".toList := by decide
    rcases mem_disposition hp with rfl | ⟨name, -, rfl⟩
    · exact ⟨hname.1, hname.2, quote_not_mem _⟩
    · exact ⟨hfile.1, hfile.2, quote_not_mem _⟩
  names f hf := name_header hf
  unbroken f hf := ⟨not_mem_header h hf (.inl rfl), not_mem_header h hf (.inr rfl)⟩

end FormField

namespace Form

theorem checkPart_of_check {f : Form} (hm : f.isMultipart = true) (hc : f.check = .ok ()) :
    ∀ field ∈ f.fields, checkPart field = .ok () := by
  rw [check, if_pos hm] at hc
  exact Field.forM_eq_ok_iff.1 hc

theorem octets_form {f : Form} (hm : f.isMultipart = true) :
    (RequestBody.form f).octets = Multipart.octets f.boundary (f.fields.map (·.toPart)) := by
  have hclosing : Bytes.ofText ("--" ++ f.boundary ++ "--\r\n") =
      Multipart.dash f.boundary ++ Bytes.ofText "--" ++ Bytes.crlf := by
    have hlast : Bytes.ofText "--\r\n" = Bytes.ofText "--" ++ Bytes.crlf := by decide
    rw [Bytes.ofText_append, hlast, Multipart.dash, List.append_assoc]
  have hparts : f.fields.flatMap (fun field => (part f.boundary field).flatMap Segment.data) =
      f.fields.flatMap fun field => field.toPart.octets f.boundary :=
    congrArg f.fields.flatMap (funext (FormField.octets_part f.boundary))
  rw [Multipart.octets, ← hclosing, List.flatMap_map, ← hparts]
  simp [RequestBody.octets, RequestBody.segments, segments, hm, Segment.ofText, Segment.data,
    List.flatMap_assoc]

/-- A form that may be sent is read back from what is sent, unless a line of a content looks like a
delimiter. -/
theorem read_multipart {f : Form} {fields : Fields} (hbuilt : f.Built) (hm : f.isMultipart = true)
    (hpresent : (RequestBody.form f).isPresent = true)
    (hfields : (RequestBody.form f).fields = .ok fields)
    (hcontent : ∀ field ∈ f.fields, ∀ line ∈ Bytes.lines field.toPart.content,
      ¬Multipart.dash f.boundary <+: line) :
    (RequestBody.form f).stream.failure = none ∧
      Multipart.read f.contentType (RequestBody.form f).stream.chunks.flatten =
        some ⟨[], f.fields.map (·.toPart), [[]]⟩ := by
  obtain ⟨hfailure, hoctets, -⟩ := RequestBody.stream_present hpresent
  have hb := hbuilt.isBoundary
  have hc : f.check = .ok () := by
    cases hcheck : f.check with
    | ok => rfl
    | error =>
      rw [RequestBody.fields, hcheck] at hfields
      cases hfields
  refine ⟨hfailure, ?_⟩
  rw [hoctets, octets_form hm]
  refine Multipart.read_octets (boundary?_contentType hm hb) (not_mem_of_isBoundary hb (by decide))
    (fun part hp => ?_) fun part hp => ?_
  · obtain ⟨field, hf, rfl⟩ := List.mem_map.1 hp
    exact FormField.sound_toPart (checkPart_of_check hm hc field hf)
  · obtain ⟨field, hf, rfl⟩ := List.mem_map.1 hp
    exact hcontent field hf

/-- Quotes in the names, and contents with line endings and with lines that almost are delimiters,
under a boundary that has to be quoted. -/
def scans : Form :=
  Form.addFile
    (Form.addText ⟨[], "edge of it"⟩ "the \"note\"" "--edge\r\n--edge of\r" "text/plain")
    "scan" ⟨"a\"b.bin", some [13, 10, 45, 45, 13]⟩ ""

theorem read_multipart_scans :
    Multipart.read scans.contentType (RequestBody.form scans).stream.chunks.flatten =
      some ⟨[], [
        { disposition := [("name", "the %22note%22")]
          fields := [⟨"Content-Type", "text/plain"⟩]
          content := Bytes.ofText "--edge\r\n--edge of\r" },
        { disposition := [("name", "scan"), ("filename", "a%22b.bin")]
          fields := [⟨"Content-Type", ""⟩, ⟨"Content-Transfer-Encoding", "binary"⟩]
          content := [13, 10, 45, 45, 13] }], [[]]⟩ := by
  have hboundary : withBoundary? "edge of it" = some ⟨[], "edge of it"⟩ := by decide
  have hbuilt : scans.Built := .addFile (.addText (.withBoundary hboundary) _ _ _) _ _ _
  have hfields : (RequestBody.form scans).fields =
      .ok ⟨[⟨"Content-Type", "multipart/form-data; boundary=\"edge of it\""⟩]⟩ := by
    decide +kernel
  exact (read_multipart hbuilt (by decide) (by decide) hfields (by decide +kernel)).2

end Form
end HttpClient
