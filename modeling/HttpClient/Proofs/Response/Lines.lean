import HttpClient.Framing
import HttpClient.Proofs.Fields.Tokens
import HttpClient.Proofs.Response.ChunkLine
import HttpClient.Proofs.Response.Moves
import HttpClient.Proofs.Text.Numerals
import HttpClient.Proofs.Text.Utf8
import HttpClient.Proofs.Text.Words
import HttpClient.RequestHead
import HttpClient.Response.Head
set_option autoImplicit false

/-! The lines of a response as they are written. Each is read back as what was written. -/

namespace HttpClient

namespace Bytes

theorem splitLine_of_not_mem {line : Bytes} (h : cr ∉ line) : splitLine line = none := by
  induction line with
  | nil => rfl
  | cons b line ih =>
    rw [List.mem_cons, not_or] at h
    simp [splitLine, Ne.symm h.1, ih h.2]

theorem splitLine_crlf {line : Bytes} (h : splitLine line = none) (rest : Bytes) :
    splitLine (line ++ crlf ++ rest) = some (line, rest) :=
  splitLine_line (splitLine_concat_cr h) rest

theorem splitLine_empty (rest : Bytes) : splitLine (crlf ++ rest) = some ([], rest) := by
  simp [crlf, splitLine]

end Bytes

namespace StatusLine

def text (s : StatusLine) : List Char :=
  s.version.name.toList ++ ' ' :: (Numeral.print 10 s.status ++ ' ' :: s.reason.toList)

def line (s : StatusLine) : Bytes := Bytes.ofChars s.text

variable {s : StatusLine}

theorem readCode_print {code : Nat} (hlow : 100 ≤ code) (hhigh : code ≤ 599) :
    readCode (Numeral.print 10 code) = .ok code := by
  have hlength : (Numeral.print 10 code).length = 3 := by
    rw [Numeral.length_print, Numeral.digits_of_le (by decide) (by omega),
      Numeral.digits_of_le (by decide) (by omega), Numeral.digits_of_lt (by decide) (by omega)]
    rfl
  simp [readCode, Numeral.read?_print, hlength, hlow, hhigh]

theorem not_mem_version (v : Version) : ' ' ∉ v.name.toList ∧ '\r' ∉ v.name.toList := by
  cases v <;> decide

theorem not_mem_print (n : Nat) :
    ' ' ∉ Numeral.print 10 n ∧ '\r' ∉ Numeral.print 10 n :=
  have hprint : ∀ c ∈ Numeral.print 10 n, c ≠ ' ' ∧ c ≠ '\r' :=
    Numeral.print_chars (by decide) (by decide) (by decide)
  ⟨fun h => (hprint _ h).1 rfl, fun h => (hprint _ h).2 rfl⟩

theorem read_line (hlow : 100 ≤ s.status) (hhigh : s.status ≤ 599)
    (hreason : isValue s.reason = true) : read s.line = .ok s := by
  have hall : s.reason.toList.all isValueChar = true := hreason
  have hname := Text.splitFirst_append (not_mem_version s.version).1
    (Numeral.print 10 s.status ++ ' ' :: s.reason.toList)
  have hcode := Text.splitFirst_append (not_mem_print s.status).1 s.reason.toList
  simp only [read, line, Text.Utf8.decode_ofChars, bind, Except.bind, Except.mapError]
  simp only [text, hname, String.ofList_toList, Version.ofName?_name, hcode,
    readCode_print hlow hhigh, Option.getD_some, hall, ite_true]

theorem splitLine_line (hreason : isValue s.reason = true) (rest : Bytes) :
    Bytes.splitLine (s.line ++ Bytes.crlf ++ rest) = some (s.line, rest) := by
  refine Bytes.splitLine_crlf (Bytes.splitLine_of_not_mem (Bytes.cr_not_mem_ofChars ?_)) rest
  have hr := not_mem_of_isValue hreason (c := '\r') (by decide)
  simp [text, (not_mem_version s.version).2, (not_mem_print s.status).2, hr]

end StatusLine

def isPadding (c : Char) : Bool := c = ' ' || c = '\t'

def Unpadded (value : String) : Prop :=
  value.toList.head?.all (!isPadding ·) = true ∧ value.toList.getLast?.all (!isPadding ·) = true

instance (value : String) : Decidable (Unpadded value) := inferInstanceAs (Decidable (_ ∧ _))

instance (f : Field) : Decidable f.Valid := inferInstanceAs (Decidable (_ ∧ _))

theorem unpadded_iff {value : String} : Unpadded value ↔
    (∀ c, value.toList.head? = some c → isPadding c = false) ∧
      ∀ c, value.toList.getLast? = some c → isPadding c = false := by
  simp [Unpadded, Option.all_eq_true]

/-- A field and the spaces and tabs that its line has around the value. -/
structure FieldLine where
  field : Field
  before : List Char
  after : List Char
  valid : field.Valid
  unpadded : Unpadded field.value
  padding : ∀ c ∈ before ++ after, isPadding c = true

namespace FieldLine

def text (l : FieldLine) : List Char :=
  l.field.name.toList ++ ':' :: (l.before ++ l.field.value.toList ++ l.after)

def line (l : FieldLine) : Bytes := Bytes.ofChars l.text

def bytes (l : FieldLine) : Bytes := l.line ++ Bytes.crlf

def plain (f : Field) (valid : f.Valid) (unpadded : Unpadded f.value) : FieldLine :=
  ⟨f, [' '], [], valid, unpadded, by simp [isPadding]⟩

theorem bytes_plain {f : Field} (valid : f.Valid) (unpadded : Unpadded f.value) :
    (plain f valid unpadded).bytes = RequestHead.fieldLine f := by
  simp [plain, bytes, line, text, RequestHead.fieldLine, Bytes.ofText]

theorem exists_plain {fields : List Field} (h : ∀ f ∈ fields, f.Valid ∧ Unpadded f.value) :
    ∃ lines : List FieldLine, lines.map (·.field) = fields ∧
      lines.flatMap bytes = fields.flatMap RequestHead.fieldLine := by
  induction fields with
  | nil => exact ⟨[], rfl, rfl⟩
  | cons f fields ih =>
    obtain ⟨lines, hfields, hbytes⟩ := ih fun g hg => h g (List.mem_cons_of_mem f hg)
    obtain ⟨valid, unpadded⟩ := h f List.mem_cons_self
    refine ⟨plain f valid unpadded :: lines, ?_, ?_⟩
    · rw [List.map_cons, hfields]
      rfl
    · rw [List.flatMap_cons, List.flatMap_cons, bytes_plain, hbytes]

variable (l : FieldLine)

theorem not_mem_padding {c : Char} (hc : isPadding c = false) : c ∉ l.before ∧ c ∉ l.after := by
  rw [← not_or, ← List.mem_append]
  intro hm
  rw [l.padding c hm] at hc
  cases hc

theorem not_mem_text {c : Char} (hcolon : c ≠ ':') (hpad : isPadding c = false)
    (htoken : isTokenChar c = false) (hvalue : isValueChar c = false) : c ∉ l.text := by
  have hname := not_mem_of_isToken l.valid.1 htoken
  have hval := not_mem_of_isValue l.valid.2 hvalue
  simp [text, hname, hval, hcolon, l.not_mem_padding hpad]

theorem exists_text : ∃ c more, isTokenChar c = true ∧ l.text = c :: more := by
  have hname := l.valid.1
  rw [isToken, Bool.and_eq_true, List.all_eq_true] at hname
  cases h : l.field.name.toList with
  | nil => simp [h] at hname
  | cons c more =>
    exact ⟨c, _, hname.2 c (h ▸ List.mem_cons_self), by rw [text, h, List.cons_append]⟩

theorem trim_padded :
    Text.trimBy isPadding (l.before ++ l.field.value.toList ++ l.after) = l.field.value.toList :=
  have hends := unpadded_iff.1 l.unpadded
  Text.strip_padded (fun c hc => l.padding c (List.mem_append_left _ hc))
    (fun c hc => l.padding c (List.mem_append_right _ hc)) hends.1 hends.2

theorem read_line : Field.read l.line = .ok l.field := by
  obtain ⟨c, more, hc, htext⟩ := l.exists_text
  have hfold : ¬(l.text.head? = some ' ' ∨ l.text.head? = some '\t') := by
    rw [htext, List.head?_cons, Option.some.injEq, Option.some.injEq, not_or]
    exact ⟨ne_of_isTokenChar hc (by decide), ne_of_isTokenChar hc (by decide)⟩
  have hcr : '\r' ∉ l.text := l.not_mem_text (by decide) (by decide) (by decide) (by decide)
  have hlf : '\n' ∉ l.text := l.not_mem_text (by decide) (by decide) (by decide) (by decide)
  have hname : ':' ∉ l.field.name.toList := not_mem_of_isToken l.valid.1 (by decide)
  have hsplit := Text.splitFirst_append hname (l.before ++ l.field.value.toList ++ l.after)
  have htrim : Text.trimBy (fun c => c = ' ' || c = '\t')
      (l.before ++ l.field.value.toList ++ l.after) = l.field.value.toList := l.trim_padded
  simp only [Field.read, line, Text.Utf8.decode_ofChars, bind, Except.bind, Except.mapError, hfold,
    ite_false, List.contains_eq_mem, hcr, hlf, decide_false, Bool.or_self, Bool.false_eq_true]
  simp only [text, hsplit, htrim, String.ofList_toList, l.valid.1, l.valid.2, Bool.not_true,
    Bool.false_eq_true, ite_false]

theorem splitLine_bytes (rest : Bytes) :
    Bytes.splitLine (l.bytes ++ rest) = some (l.line, rest) :=
  Bytes.splitLine_crlf (Bytes.splitLine_of_not_mem (Bytes.cr_not_mem_ofChars
    (l.not_mem_text (by decide) (by decide) (by decide) (by decide)))) rest

theorem line_ne_nil : l.line.isEmpty = false := by
  obtain ⟨c, more, -, htext⟩ := l.exists_text
  simp [line, htext, String.utf8EncodeChar_ne_nil]

end FieldLine

/-- A line that names size 0 in one to sixteen digits: blanks may stand around them, and an
extension may follow. -/
structure LastLine where
  before : Bytes
  zeros : Nat
  after : Bytes
  extension : Bytes
  blank : ∀ b ∈ before ++ after, Bytes.isBlank b = true
  some_zeros : 0 < zeros
  few_zeros : zeros ≤ 16
  opens : ∀ b, extension.head? = some b → b = 59
  unbroken : Bytes.splitLine (before ++ List.replicate zeros 48 ++ after ++ extension) = none

namespace LastLine

def line (l : LastLine) : Bytes :=
  l.before ++ List.replicate l.zeros 48 ++ l.after ++ l.extension

def bytes (l : LastLine) : Bytes := l.line ++ Bytes.crlf

end LastLine

namespace Chunk

theorem takeWhile_extension {size extension : Bytes} (hs : ∀ b ∈ size, b ≠ 59)
    (he : ∀ b, extension.head? = some b → b = 59) :
    (size ++ extension).takeWhile (· != 59) = size := by
  have hnil : extension.takeWhile (· != 59) = [] := by
    cases extension with
    | nil => rfl
    | cons b extension => simp [he b rfl]
  rw [List.takeWhile_append_of_pos (by simpa using hs), hnil, List.append_nil]

theorem readSize_padded {n : Nat} {before size after extension : Bytes}
    (hblank : ∀ b ∈ before ++ after, Bytes.isBlank b = true)
    (hsize : ∀ b ∈ size, Bytes.isBlank b = false ∧ b ≠ 59) (hfew : size.length ≤ 16)
    (hread : Numeral.read? 16 (size.map Char.ofUInt8) = some n)
    (he : ∀ b, extension.head? = some b → b = 59) :
    readSize (before ++ size ++ after ++ extension) = .ok n := by
  have hpart : ∀ b ∈ before ++ size ++ after, b ≠ 59 := by
    intro b hb
    have hne : Bytes.isBlank b = true → b ≠ 59 := by
      rintro hblank rfl
      exact absurd hblank (by decide)
    rw [List.mem_append, List.mem_append] at hb
    rcases hb with (hb | hb) | hb
    · exact hne (hblank b (List.mem_append_left _ hb))
    · exact (hsize b hb).2
    · exact hne (hblank b (List.mem_append_right _ hb))
  have htrim : Bytes.trim (before ++ size ++ after) = size :=
    Text.strip_padded (fun b hb => hblank b (List.mem_append_left _ hb))
      (fun b hb => hblank b (List.mem_append_right _ hb))
      (fun b hb => (hsize b (List.mem_of_head? hb)).1)
      fun b hb => (hsize b (List.mem_of_getLast? hb)).1
  simp only [readSize, takeWhile_extension hpart he, htrim, hread, hfew, ite_true]

theorem length_print_le {n : Nat} (hn : n ≤ Numeral.wordLimit) :
    (Bytes.ofChars (Numeral.print 16 n)).length ≤ 16 := by
  have hascii : ∀ c ∈ Numeral.print 16 n, c.toNat < 128 :=
    Numeral.print_chars (by decide) (by decide) (by decide)
  rw [Bytes.ofChars_ascii hascii, List.length_map, Numeral.length_print]
  have hpow : n < Nat.pow 16 (15 + 1) := Nat.lt_succ_of_le hn
  exact Numeral.length_digits_le (by decide) hpow

theorem readSize_print {n : Nat} (hn : n ≤ Numeral.wordLimit) :
    readSize (Bytes.ofChars (Numeral.print 16 n)) = .ok n := by
  have hascii : ∀ c ∈ Numeral.print 16 n, c.toNat < 128 :=
    Numeral.print_chars (by decide) (by decide) (by decide)
  have hplain : ∀ c ∈ Numeral.print 16 n,
      Bytes.isBlank (.ofNat c.toNat) = false ∧ UInt8.ofNat c.toNat ≠ 59 :=
    Numeral.print_chars (by decide) (by decide) (by decide)
  have hchars : (Bytes.ofChars (Numeral.print 16 n)).map Char.ofUInt8 = Numeral.print 16 n := by
    rw [Bytes.ofChars_ascii hascii, List.map_map]
    have hsame : ∀ c ∈ Numeral.print 16 n, Char.ofUInt8 (.ofNat c.toNat) = c :=
      Numeral.print_chars (by decide) (by decide) (by decide)
    exact List.map_congr_left hsame |>.trans (List.map_id _)
  have hread :
      Numeral.read? 16 ((Bytes.ofChars (Numeral.print 16 n)).map Char.ofUInt8) = some n := by
    rw [hchars]
    exact Numeral.read?_print (by decide) (by decide) n
  have hsize : ∀ b ∈ Bytes.ofChars (Numeral.print 16 n), Bytes.isBlank b = false ∧ b ≠ 59 := by
    rw [Bytes.ofChars_ascii hascii]
    simpa using hplain
  have hnone : ∀ b ∈ ([] ++ [] : Bytes), Bytes.isBlank b = true := by simp
  have hend : ∀ b, ([] : Bytes).head? = some b → b = 59 := by simp
  simpa using readSize_padded hnone hsize (length_print_le hn) hread hend

end Chunk

namespace LastLine

variable (l : LastLine)

theorem readSize_line : Chunk.readSize l.line = .ok 0 := by
  refine Chunk.readSize_padded l.blank ?_ ?_ ?_ l.opens
  · intro b hb
    rw [List.eq_of_mem_replicate hb]
    decide
  · rw [List.length_replicate]
    exact l.few_zeros
  · have hdigits : ((List.replicate l.zeros 0).map Numeral.digitChar).mapM (Numeral.digitOf? 16) =
        some (List.replicate l.zeros 0) := Numeral.mapM_digitChar (by decide) (by simp)
    have hvalue : Numeral.value 16 (List.replicate l.zeros 0) = 0 :=
      Numeral.value_eq_zero 16 fun d hd => List.eq_of_mem_replicate hd
    have hchars : (List.replicate l.zeros 48).map Char.ofUInt8 =
        (List.replicate l.zeros 0).map Numeral.digitChar := by
      rw [List.map_replicate, List.map_replicate]
      rfl
    have hne : l.zeros ≠ 0 := Nat.ne_of_gt l.some_zeros
    rw [Numeral.read?, hchars, hdigits, Option.map_some, hvalue]
    simp [hne]

theorem splitLine_bytes (rest : Bytes) :
    Bytes.splitLine (l.bytes ++ rest) = some (l.line, rest) :=
  Bytes.splitLine_crlf l.unbroken rest

end LastLine

end HttpClient
