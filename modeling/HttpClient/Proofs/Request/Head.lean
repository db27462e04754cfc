import HttpClient.Proofs.Response.Lines
set_option autoImplicit false

/-!
The written head of a request. Its lines end where the encoder ends them and nowhere else, and from
the octets one learns the method, the target, the version and the fields that were given.
-/

namespace HttpClient

namespace Bytes

def occurrences (pattern : Bytes) : Bytes → Nat
  | [] => 0
  | b :: rest => (if pattern.isPrefixOf (b :: rest) then 1 else 0) + occurrences pattern rest

/-- A number of lines of which the last is empty and no other. Every carriage return and every line
feed belongs to the end of a line. -/
structure Delimited (lines : Nat) (bs : Bytes) : Prop where
  ends : occurrences crlf bs = lines
  cr_ends : ∀ before after, bs = before ++ cr :: after → after.head? = some lf
  lf_ends : ∀ before after, bs = before ++ lf :: after → before.getLast? = some cr
  closed : ∃ front, bs = front ++ crlf ++ crlf
  closed_once : ∀ before after, bs = before ++ crlf ++ crlf ++ after → after = []

def joinLines (lines : List Bytes) : Bytes := lines.flatMap (· ++ crlf)

def Unbroken (line : Bytes) : Prop := cr ∉ line ∧ lf ∉ line

section Line

variable {line before after rest : Bytes}

theorem occurrences_line (h : cr ∉ line) (rest : Bytes) :
    occurrences crlf (line ++ crlf ++ rest) = occurrences crlf rest + 1 := by
  induction line with
  | nil => simp [crlf, occurrences, cr, lf, Nat.add_comm]
  | cons b line ih =>
    rw [List.mem_cons, not_or] at h
    have hb : crlf.isPrefixOf (b :: (line ++ crlf ++ rest)) = false := by
      simp [crlf, List.isPrefixOf, h.1]
    rw [List.cons_append, List.cons_append, occurrences, hb, ih h.2]
    simp

theorem eq_or_later {b : UInt8} {front back : Bytes} (h : b ∉ front)
    (heq : front ++ b :: back = before ++ b :: after) :
    before = front ∧ after = back ∨
      ∃ more, before = front ++ b :: more ∧ back = more ++ b :: after := by
  induction front generalizing before with
  | nil =>
    obtain ⟨rfl, hback⟩ | ⟨more, rfl, hback⟩ := List.cons_eq_append_iff.1 heq
    · exact .inl ⟨rfl, (List.cons.inj hback).2⟩
    · exact .inr ⟨more, rfl, hback⟩
  | cons c front ih =>
    rw [List.mem_cons, not_or] at h
    obtain ⟨rfl, hback⟩ | ⟨more, rfl, hback⟩ := List.cons_eq_append_iff.1 heq
    · exact absurd (List.cons.inj hback).1 h.1
    · obtain ⟨rfl, rfl⟩ | ⟨more, rfl, rfl⟩ := ih h.2 hback
      · exact .inl ⟨rfl, rfl⟩
      · exact .inr ⟨more, rfl, rfl⟩

theorem cr_cases (h : cr ∉ line) (heq : line ++ crlf ++ rest = before ++ cr :: after) :
    before = line ∧ after = lf :: rest ∨
      ∃ more, before = line ++ crlf ++ more ∧ rest = more ++ cr :: after := by
  rw [List.append_assoc] at heq
  obtain hfirst | ⟨more, rfl, hlater⟩ := eq_or_later h heq
  · exact .inl hfirst
  · obtain ⟨-, hcr⟩ | ⟨more, rfl, hrest⟩ := List.cons_eq_append_iff.1 hlater
    · exact absurd (List.cons.inj hcr).1 (by decide)
    · exact .inr ⟨more, by simp [crlf], hrest⟩

theorem lf_cases (h : lf ∉ line) (heq : line ++ crlf ++ rest = before ++ lf :: after) :
    before = line ++ [cr] ∧ after = rest ∨
      ∃ more, before = line ++ crlf ++ more ∧ rest = more ++ lf :: after := by
  have hline : lf ∉ line ++ [cr] := by simpa [lf, cr] using h
  have hsplit : line ++ crlf ++ rest = (line ++ [cr]) ++ lf :: rest := by simp [crlf]
  rw [hsplit] at heq
  obtain hfirst | ⟨more, rfl, hlater⟩ := eq_or_later hline heq
  · exact .inl hfirst
  · exact .inr ⟨more, by simp [crlf], hlater⟩

end Line

section Lines

variable {lines : List Bytes} {before after : Bytes}

theorem joinLines_cons (line : Bytes) (lines : List Bytes) :
    joinLines (line :: lines) = line ++ crlf ++ joinLines lines := rfl

theorem occurrences_joinLines (h : ∀ line ∈ lines, Unbroken line) :
    occurrences crlf (joinLines lines) = lines.length := by
  induction lines with
  | nil => rfl
  | cons line lines ih =>
    obtain ⟨hline, hlines⟩ := List.forall_mem_cons.1 h
    rw [joinLines_cons, occurrences_line hline.1, ih hlines, List.length_cons]

theorem head?_of_cr (h : ∀ line ∈ lines, Unbroken line)
    (heq : joinLines lines = before ++ cr :: after) : after.head? = some lf := by
  induction lines generalizing before with
  | nil => simp [joinLines] at heq
  | cons line lines ih =>
    obtain ⟨hline, hlines⟩ := List.forall_mem_cons.1 h
    obtain ⟨-, rfl⟩ | ⟨more, -, hlater⟩ := cr_cases hline.1 heq
    · rfl
    · exact ih hlines hlater

theorem getLast?_of_lf (h : ∀ line ∈ lines, Unbroken line)
    (heq : joinLines lines = before ++ lf :: after) : before.getLast? = some cr := by
  induction lines generalizing before with
  | nil => simp [joinLines] at heq
  | cons line lines ih =>
    obtain ⟨hline, hlines⟩ := List.forall_mem_cons.1 h
    obtain ⟨rfl, -⟩ | ⟨more, rfl, hlater⟩ := lf_cases hline.2 heq
    · exact List.getLast?_concat
    · rw [List.getLast?_append, ih hlines hlater, Option.some_or]

theorem eq_nil_of_crlf (h : ∀ line ∈ lines, Unbroken line ∧ line ≠ [])
    (heq : joinLines (lines ++ [[]]) = crlf ++ after) : after = [] := by
  cases lines with
  | nil => simpa [joinLines] using heq.symm
  | cons line lines =>
    obtain ⟨⟨hline, hne⟩, -⟩ := List.forall_mem_cons.1 h
    have hcr : joinLines (line :: lines ++ [[]]) = [] ++ cr :: lf :: after := heq
    obtain ⟨hnil, -⟩ | ⟨more, hnil, -⟩ := cr_cases hline.1 hcr
    · exact absurd hnil.symm hne
    · simp [crlf] at hnil

theorem eq_nil_of_crlf_crlf (h : ∀ line ∈ lines, Unbroken line ∧ line ≠ [])
    (heq : joinLines (lines ++ [[]]) = before ++ crlf ++ crlf ++ after) : after = [] := by
  induction lines generalizing before with
  | nil =>
    have hlength := congrArg List.length heq
    simp [joinLines, crlf] at hlength
    omega
  | cons line lines ih =>
    obtain ⟨hline, hlines⟩ := List.forall_mem_cons.1 h
    rw [List.append_assoc, List.append_assoc] at heq
    obtain ⟨-, hrest⟩ | ⟨more, -, hlater⟩ := cr_cases hline.1.1 heq
    · exact eq_nil_of_crlf hlines (List.cons.inj hrest).2.symm
    · have hrest : joinLines (lines ++ [[]]) = more ++ crlf ++ crlf ++ after := by
        rw [List.append_assoc, List.append_assoc]
        exact hlater
      exact ih hlines hrest

theorem unbroken_closed (h : ∀ line ∈ lines, Unbroken line ∧ line ≠ []) :
    ∀ line ∈ lines ++ [[]], Unbroken line := by
  intro line hm
  obtain hm | hm := List.mem_append.1 hm
  · exact (h line hm).1
  · rw [List.mem_singleton.1 hm]
    exact ⟨List.not_mem_nil, List.not_mem_nil⟩

theorem joinLines_delimited (h : ∀ line ∈ lines, Unbroken line ∧ line ≠ []) (hne : lines ≠ []) :
    Delimited (lines.length + 1) (joinLines (lines ++ [[]])) := by
  have hall := unbroken_closed h
  refine ⟨?_, fun _ _ => head?_of_cr hall, fun _ _ => getLast?_of_lf hall, ?_,
    fun _ _ => eq_nil_of_crlf_crlf h⟩
  · rw [occurrences_joinLines hall, List.length_append, List.length_singleton]
  · refine ⟨joinLines lines.dropLast ++ lines.getLast hne, ?_⟩
    conv_lhs => rw [← List.dropLast_append_getLast hne]
    simp [joinLines]

theorem joinLines_injective {lines' : List Bytes} (h : ∀ line ∈ lines, Unbroken line)
    (h' : ∀ line ∈ lines', Unbroken line) (heq : joinLines lines = joinLines lines') :
    lines = lines' := by
  induction lines generalizing lines' with
  | nil =>
    cases lines' with
    | nil => rfl
    | cons line' lines' => simp [joinLines, crlf] at heq
  | cons line lines ih =>
    cases lines' with
    | nil => simp [joinLines, crlf] at heq
    | cons line' lines' =>
      obtain ⟨hline, hlines⟩ := List.forall_mem_cons.1 h
      obtain ⟨hline', hlines'⟩ := List.forall_mem_cons.1 h'
      have hsplit := congrArg splitLine heq
      rw [joinLines_cons, joinLines_cons, splitLine_crlf (splitLine_of_not_mem hline.1),
        splitLine_crlf (splitLine_of_not_mem hline'.1), Option.some.injEq,
        Prod.mk.injEq] at hsplit
      rw [hsplit.1, ih hlines hlines' hsplit.2]

end Lines

theorem ofChars_ne_nil {cs : List Char} (h : cs ≠ []) : ofChars cs ≠ [] := by
  cases cs with
  | nil => exact absurd rfl h
  | cons c cs => simp [String.utf8EncodeChar_ne_nil]

theorem ofChars_injective {cs ds : List Char} (heq : ofChars cs = ofChars ds) : cs = ds := by
  have hdecode := congrArg Text.Utf8.decode heq
  rw [Text.Utf8.decode_ofChars, Text.Utf8.decode_ofChars, Except.ok.injEq] at hdecode
  exact hdecode

end Bytes

namespace Field

variable {f g : Field}

def text (f : Field) : List Char := f.name.toList ++ ':' :: ' ' :: f.value.toList

theorem fieldLine_eq (f : Field) :
    RequestHead.fieldLine f = Bytes.ofChars f.text ++ Bytes.crlf := by
  simp [RequestHead.fieldLine, text, Bytes.ofText]

theorem unbroken_text (h : f.Valid) : '\r' ∉ f.text ∧ '\n' ∉ f.text := by
  have hname (c : Char) (hc : isTokenChar c = false) := not_mem_of_isToken h.1 hc
  have hvalue (c : Char) (hc : isValueChar c = false) := not_mem_of_isValue h.2 hc
  simp [text, hname '\r' (by decide), hname '\n' (by decide), hvalue '\r' (by decide),
    hvalue '\n' (by decide)]

theorem text_injective (hf : f.Valid) (hg : g.Valid) (heq : f.text = g.text) : f = g := by
  have hsplit := congrArg (Text.splitFirst ':') heq
  rw [text, text, Text.splitFirst_append (not_mem_of_isToken hf.1 (by decide)),
    Text.splitFirst_append (not_mem_of_isToken hg.1 (by decide)), Prod.mk.injEq, Option.some.injEq,
    List.cons.injEq] at hsplit
  obtain ⟨hname, -, hvalue⟩ := hsplit
  exact congrArg₂ Field.mk (String.toList_inj.1 hname) (String.toList_inj.1 hvalue)

theorem forM_eq_ok_iff {α ε : Type} {test : α → Except ε Unit} {as : List α} :
    as.forM test = .ok () ↔ ∀ a ∈ as, test a = .ok () := by
  induction as with
  | nil => simp [List.forM, pure, Except.pure]
  | cons a as ih =>
    have hcons : (a :: as).forM test = (test a).bind fun _ => as.forM test := rfl
    rw [List.forall_mem_cons, ← ih, hcons]
    cases test a <;> simp [Except.bind]

theorem forM_check_eq_ok_iff {fields : List Field} :
    fields.forM Field.check = .ok () ↔ ∀ f ∈ fields, f.Valid := by
  simp only [forM_eq_ok_iff, check_eq_ok_iff]

end Field

namespace RequestHead

variable {r r' : RequestHead} {b : Bytes} {authority authority' : String}

/-- A head whose parts may all be written. -/
structure Valid (r : RequestHead) : Prop where
  method : isToken r.method = true
  target : isTarget r.target = true
  fields : ∀ f ∈ r.fields.entries, f.Valid

theorem check_eq_ok_iff : r.check = .ok () ↔ r.Valid := by
  have hvalid : r.Valid ↔ isToken r.method = true ∧ isTarget r.target = true ∧
      ∀ f ∈ r.fields.entries, f.Valid :=
    ⟨fun h => ⟨h.method, h.target, h.fields⟩, fun h => ⟨h.1, h.2.1, h.2.2⟩⟩
  rw [hvalid, ← Field.forM_check_eq_ok_iff, check]
  cases isToken r.method <;> cases isTarget r.target <;>
    simp [bind, Except.bind, throw, throwThe, MonadExceptOf.throw]

theorem encode_eq_ok_iff : r.encode = .ok b ↔ r.Valid ∧ r.lines = b := by
  rw [← check_eq_ok_iff, encode]
  cases r.check <;> simp [bind, Except.bind, pure, Except.pure]

theorem not_mem_of_isTarget {s : String} {c : Char} (h : isTarget s = true) (hc : c.toNat ≤ 0x20) :
    c ∉ s.toList := by
  intro hm
  rw [isTarget, Bool.and_eq_true, List.all_eq_true] at h
  have := h.2 c hm
  simp at this
  omega

def startText (r : RequestHead) : List Char :=
  r.method.toList ++ ' ' :: (r.target.toList ++ ' ' :: r.version.name.toList)

def texts (r : RequestHead) : List (List Char) := r.startText :: r.fields.entries.map Field.text

theorem lines_eq (r : RequestHead) :
    r.lines = Bytes.joinLines (r.texts.map Bytes.ofChars ++ [[]]) := by
  have hspace : String.utf8EncodeChar ' ' = [32] := rfl
  have hline : fieldLine = fun f => Bytes.ofChars f.text ++ Bytes.crlf :=
    funext Field.fieldLine_eq
  simp [lines, Bytes.joinLines, texts, startLine, startText, Bytes.ofText, hspace, hline,
    List.flatMap_map]

theorem unbroken_startText (h : r.Valid) : '\r' ∉ r.startText ∧ '\n' ∉ r.startText := by
  have hmethod (c : Char) (hc : isTokenChar c = false) := not_mem_of_isToken h.method hc
  have htarget (c : Char) (hc : c.toNat ≤ 0x20) := not_mem_of_isTarget h.target hc
  have hversion : '\r' ∉ r.version.name.toList ∧ '\n' ∉ r.version.name.toList := by
    cases r.version <;> decide
  simp [startText, hmethod '\r' (by decide), hmethod '\n' (by decide), htarget '\r' (by decide),
    htarget '\n' (by decide), hversion]

theorem unbroken_texts (h : r.Valid) : ∀ text ∈ r.texts, '\r' ∉ text ∧ '\n' ∉ text := by
  refine List.forall_mem_cons.2 ⟨unbroken_startText h, fun text hm => ?_⟩
  obtain ⟨f, hf, rfl⟩ := List.mem_map.1 hm
  exact Field.unbroken_text (h.fields f hf)

theorem texts_ne_nil : ∀ text ∈ r.texts, text ≠ [] := by
  refine List.forall_mem_cons.2 ⟨by simp [startText], fun text hm => ?_⟩
  obtain ⟨f, -, rfl⟩ := List.mem_map.1 hm
  simp [Field.text]

theorem unbroken_lines (h : r.Valid) :
    ∀ line ∈ r.texts.map Bytes.ofChars, Bytes.Unbroken line ∧ line ≠ [] := by
  intro line hm
  obtain ⟨text, ht, rfl⟩ := List.mem_map.1 hm
  obtain ⟨hcr, hlf⟩ := unbroken_texts h text ht
  refine ⟨⟨Bytes.cr_not_mem_ofChars hcr, Bytes.lf_not_mem_ofChars hlf⟩, ?_⟩
  exact Bytes.ofChars_ne_nil (texts_ne_nil text ht)

theorem lines_delimited (h : r.Valid) : Bytes.Delimited (r.fields.count + 2) r.lines := by
  have hdelimited := Bytes.joinLines_delimited (unbroken_lines h) (by simp [texts])
  rw [lines_eq]
  simpa [texts, Fields.count] using hdelimited

theorem startText_injective (h : r.Valid) (h' : r'.Valid) (heq : r.startText = r'.startText) :
    r.method = r'.method ∧ r.target = r'.target ∧ r.version = r'.version := by
  have hmethod := congrArg (Text.splitFirst ' ') heq
  rw [startText, startText, Text.splitFirst_append (not_mem_of_isToken h.method (by decide)),
    Text.splitFirst_append (not_mem_of_isToken h'.method (by decide)), Prod.mk.injEq,
    Option.some.injEq] at hmethod
  have htarget := congrArg (Text.splitFirst ' ') hmethod.2
  rw [Text.splitFirst_append (not_mem_of_isTarget h.target (by decide)),
    Text.splitFirst_append (not_mem_of_isTarget h'.target (by decide)), Prod.mk.injEq,
    Option.some.injEq] at htarget
  have hversion := congrArg Version.ofName? (String.toList_inj.1 htarget.2)
  rw [Version.ofName?_name, Version.ofName?_name, Option.some.injEq] at hversion
  exact ⟨String.toList_inj.1 hmethod.1, String.toList_inj.1 htarget.1, hversion⟩

theorem entries_injective {fields fields' : List Field} (h : ∀ f ∈ fields, f.Valid)
    (h' : ∀ f ∈ fields', f.Valid) (heq : fields.map Field.text = fields'.map Field.text) :
    fields = fields' := by
  induction fields generalizing fields' with
  | nil => exact (List.map_eq_nil_iff.1 heq.symm).symm
  | cons f fields ih =>
    obtain ⟨g, gs, rfl, hg, hgs⟩ := List.map_eq_cons_iff.1 heq.symm
    obtain ⟨hf, hfields⟩ := List.forall_mem_cons.1 h
    obtain ⟨hvalid, hvalids⟩ := List.forall_mem_cons.1 h'
    rw [Field.text_injective hvalid hf hg, ih hfields hvalids hgs.symm]

theorem lines_injective (h : r.Valid) (h' : r'.Valid) (heq : r.lines = r'.lines) : r = r' := by
  rw [lines_eq, lines_eq] at heq
  have hlines := Bytes.joinLines_injective (Bytes.unbroken_closed (unbroken_lines h))
    (Bytes.unbroken_closed (unbroken_lines h')) heq
  have htexts : r.texts = r'.texts :=
    List.map_injective_iff.2 (fun _ _ => Bytes.ofChars_injective) (List.append_cancel_right hlines)
  obtain ⟨hstart, hentries⟩ := List.cons.inj htexts
  obtain ⟨hmethod, htarget, hversion⟩ := startText_injective h h' hstart
  have hfields : r.fields = r'.fields :=
    congrArg Fields.mk (entries_injective h.fields h'.fields hentries)
  calc
    r = ⟨r.method, r.target, r.version, r.fields⟩ := rfl
    _ = r' := by rw [hmethod, htarget, hversion, hfields]

def connect (authority : String) : RequestHead :=
  ⟨"CONNECT", authority, .http11, ⟨[⟨"Host", authority⟩]⟩⟩

theorem encodeConnect_eq_ok_iff (authority : String) :
    encodeConnect authority = .ok b ↔ (connect authority).encode = .ok b := by
  have hfields : Fields.empty.append "Host" authority =
      (Field.check ⟨"Host", authority⟩).map fun _ => (connect authority).fields := by
    rw [Fields.append]
    cases Field.check ⟨"Host", authority⟩ <;> rfl
  cases hcheck : Field.check ⟨"Host", authority⟩ with
  | ok _ =>
    rw [encodeConnect, hfields, hcheck]
    rfl
  | error error =>
    have hinvalid : ¬(connect authority).Valid := by
      intro hvalid
      have hfield := (Field.check_eq_ok_iff _).2 (hvalid.fields _ List.mem_cons_self)
      rw [hcheck] at hfield
      cases hfield
    rw [encodeConnect, hfields, hcheck, encode_eq_ok_iff]
    simp [hinvalid, bind, Except.bind, Except.map]

/-- Written heads are told apart: no line ends inside a part of one, and no two are alike. -/
theorem encode_unambiguous :
    (∀ (r : RequestHead) (b : Bytes), r.encode = .ok b →
      Bytes.Delimited (r.fields.count + 2) b) ∧
    (∀ (r r' : RequestHead) (b : Bytes), r.encode = .ok b → r'.encode = .ok b → r = r') ∧
    (∀ (authority : String) (b : Bytes), encodeConnect authority = .ok b →
      Bytes.Delimited 3 b) ∧
    ∀ (authority authority' : String) (b : Bytes), encodeConnect authority = .ok b →
      encodeConnect authority' = .ok b → authority = authority' := by
  have hdelimited (r : RequestHead) (b : Bytes) (h : r.encode = .ok b) :
      Bytes.Delimited (r.fields.count + 2) b := by
    obtain ⟨hvalid, rfl⟩ := encode_eq_ok_iff.1 h
    exact lines_delimited hvalid
  have hinjective (r r' : RequestHead) (b : Bytes) (h : r.encode = .ok b)
      (h' : r'.encode = .ok b) : r = r' := by
    obtain ⟨hvalid, hlines⟩ := encode_eq_ok_iff.1 h
    obtain ⟨hvalid', hlines'⟩ := encode_eq_ok_iff.1 h'
    exact lines_injective hvalid hvalid' (hlines.trans hlines'.symm)
  refine ⟨hdelimited, hinjective, ?_, ?_⟩
  · intro authority b h
    exact hdelimited _ b ((encodeConnect_eq_ok_iff authority).1 h)
  · intro authority authority' b h h'
    exact congrArg RequestHead.target (hinjective _ _ b ((encodeConnect_eq_ok_iff authority).1 h)
      ((encodeConnect_eq_ok_iff authority').1 h'))

/-- A head with an empty value, and one with a colon in it and a letter of two octets. -/
def sample : RequestHead :=
  ⟨"GET", "/é?q=a:b", .http11, ⟨[⟨"X-Empty", ""⟩, ⟨"X-Text", "a: é"⟩]⟩⟩

theorem encode_unambiguous_sample :
    sample.encode = .ok sample.lines ∧ Bytes.Delimited 4 sample.lines ∧
      (∀ r : RequestHead, r.encode = .ok sample.lines → r = sample) ∧
      encodeConnect "h.example:443" = .ok (connect "h.example:443").lines ∧
      Bytes.Delimited 3 (connect "h.example:443").lines ∧
      ∀ authority, encodeConnect authority = .ok (connect "h.example:443").lines →
        authority = "h.example:443" := by
  have hsample : sample.encode = .ok sample.lines := by decide +kernel
  have hconnect : encodeConnect "h.example:443" = .ok (connect "h.example:443").lines := by
    decide +kernel
  obtain ⟨hdelimited, hinjective, htunnel, hauthority⟩ := encode_unambiguous
  exact ⟨hsample, hdelimited _ _ hsample, fun r h => hinjective r _ _ h hsample, hconnect,
    htunnel _ _ hconnect, fun a h => hauthority a _ _ h hconnect⟩

end RequestHead

end HttpClient
