import HttpClient.Proofs.Response.Heads
import HttpClient.Proofs.Response.Lines
import HttpClient.Proofs.Text.Spelling
set_option autoImplicit false

/-!
Heads of responses as they come. A line is read as a status line or as a field only if it is one of
the few ways to write that status line or that field, so a head that was read tells what its octets
were, up to a space before an empty reason and the spaces and tabs around values.
-/

namespace HttpClient

theorem Version.name_of_ofName? {s : String} {v : Version} (h : ofName? s = some v) :
    s = v.name := by
  unfold ofName? at h
  repeat' split at h
  all_goals cases h
  all_goals assumption

namespace StatusLine

structure Valid (s : StatusLine) : Prop where
  low : 100 ≤ s.status
  high : s.status ≤ 599
  reason : isValue s.reason = true

def bareText (s : StatusLine) : List Char :=
  s.version.name.toList ++ ' ' :: Numeral.print 10 s.status

/-- The ways to write a status line: a space stands before the reason, and may stand there also if
the reason is empty. -/
inductive Written (s : StatusLine) : Bytes → Prop where
  | spaced : Written s s.line
  | bare (empty : s.reason = "") : Written s (Bytes.ofChars s.bareText)

variable {s : StatusLine} {line : Bytes}

theorem readCode_sound {text : List Char} {code : Nat} (h : readCode text = .ok code) :
    text = Numeral.print 10 code ∧ 100 ≤ code ∧ code ≤ 599 := by
  unfold readCode at h
  cases hread : Numeral.read? 10 text with
  | none =>
    rw [hread] at h
    cases h
  | some n =>
    simp only [hread] at h
    repeat' split at h
    all_goals cases h
    next hlength hrange =>
      have hthree : text.length = 2 + 1 := Decidable.of_not_not hlength
      exact ⟨Numeral.eq_print_of_read? hread hthree hrange.1, hrange⟩

theorem read_sound (h : read line = .ok s) : s.Valid ∧ s.Written line := by
  unfold read at h
  cases hd : Text.Utf8.decode line with
  | error fault =>
    rw [hd] at h
    cases h
  | ok text =>
    have hline := Text.Utf8.ofChars_of_decode hd
    rcases hname : Text.splitFirst ' ' text with ⟨name, more⟩
    have htext := Text.eq_of_splitFirst hname
    simp only [hd, bind, Except.bind, Except.mapError, hname] at h
    cases hv : Version.ofName? (String.ofList name) with
    | none =>
      rw [hv] at h
      cases h
    | some version =>
      have hversion : version.name.toList = name := by
        rw [← Version.name_of_ofName? hv, String.toList_ofList]
      cases more with
      | none =>
        rw [hv] at h
        cases h
      | some more =>
        rcases hcode : Text.splitFirst ' ' more with ⟨code, reason⟩
        have hmore := Text.eq_of_splitFirst hcode
        simp only [hv, hcode] at h
        cases hread : readCode code with
        | error cause =>
          rw [hread] at h
          cases h
        | ok status =>
          obtain ⟨hprint, hlow, hhigh⟩ := readCode_sound hread
          simp only [hread] at h
          split at h
          next hreason =>
            cases h
            refine ⟨⟨hlow, hhigh, by simpa [isValue] using hreason⟩, ?_⟩
            subst hversion hprint
            rw [← hline, htext, hmore]
            cases reason with
            | none =>
              rw [Option.elim, Option.elim, List.append_nil]
              exact .bare rfl
            | some reason =>
              have hspaced := Written.spaced
                (s := ⟨version, status, String.ofList ((some reason).getD [])⟩)
              simpa [StatusLine.line, StatusLine.text] using hspaced
          next => cases h

theorem read_bare (valid : s.Valid) (empty : s.reason = "") :
    read (Bytes.ofChars s.bareText) = .ok s := by
  have hname := Text.splitFirst_append (not_mem_version s.version).1 (Numeral.print 10 s.status)
  have hcode := Text.splitFirst_of_not_mem (not_mem_print s.status).1
  simp only [read, Text.Utf8.decode_ofChars, bind, Except.bind, Except.mapError]
  simp only [bareText, hname, String.ofList_toList, Version.ofName?_name, hcode,
    readCode_print valid.low valid.high, Option.getD_none, List.all_nil, ite_true]
  rw [show String.ofList [] = s.reason from empty.symm]

theorem read_written (valid : s.Valid) (written : s.Written line) : read line = .ok s := by
  cases written with
  | spaced => exact read_line valid.low valid.high valid.reason
  | bare empty => exact read_bare valid empty

theorem splitLine_written (valid : s.Valid) (written : s.Written line) (rest : Bytes) :
    Bytes.splitLine (line ++ Bytes.crlf ++ rest) = some (line, rest) := by
  cases written with
  | spaced => exact splitLine_line valid.reason rest
  | bare empty =>
    refine Bytes.splitLine_crlf (Bytes.splitLine_of_not_mem (Bytes.cr_not_mem_ofChars ?_)) rest
    simp [bareText, (not_mem_version s.version).2, (not_mem_print s.status).2]

end StatusLine

namespace Field

variable {f : Field} {line : Bytes}

theorem read_sound (h : read line = .ok f) : ∃ l : FieldLine, l.field = f ∧ l.line = line := by
  unfold read at h
  cases hd : Text.Utf8.decode line with
  | error fault =>
    rw [hd] at h
    cases h
  | ok text =>
    have hline := Text.Utf8.ofChars_of_decode hd
    simp only [hd, bind, Except.bind, Except.mapError] at h
    split at h
    · cases h
    split at h
    · cases h
    rcases hsplit : Text.splitFirst ':' text with ⟨name, value⟩
    have htext := Text.eq_of_splitFirst hsplit
    cases value with
    | none =>
      rw [hsplit] at h
      cases h
    | some value =>
      simp only [hsplit] at h
      split at h
      · cases h
      next hname =>
      split at h
      · cases h
      next hvalue =>
      cases h
      obtain ⟨before, middle, after, htrim, hpadded, hall, hhead, hlast⟩ :=
        Text.exists_stripped isPadding value
      have hmiddle : Text.trimBy (fun c => c = ' ' || c = '\t') value = middle := htrim
      rw [hmiddle] at hvalue ⊢
      refine ⟨⟨_, before, after, ⟨by simpa using hname, by simpa using hvalue⟩,
        unpadded_iff.2 ⟨?_, ?_⟩, hall⟩, rfl, ?_⟩
      · simpa using hhead
      · simpa using hlast
      · rw [← hline, htext, hpadded]
        simp [FieldLine.line, FieldLine.text]

end Field

namespace FieldLine

theorem not_mem_line (l : FieldLine) : Bytes.cr ∉ l.line ∧ Bytes.lf ∉ l.line :=
  ⟨Bytes.cr_not_mem_ofChars (l.not_mem_text (by decide) (by decide) (by decide) (by decide)),
    Bytes.lf_not_mem_ofChars (l.not_mem_text (by decide) (by decide) (by decide) (by decide))⟩

end FieldLine

/-- A status line and field lines, each written in one of the ways to write it. -/
structure WrittenHead where
  start : StatusLine
  startLine : Bytes
  lines : List FieldLine
  valid : start.Valid
  written : start.Written startLine

namespace WrittenHead

variable (h : WrittenHead)

def fields : Fields := ⟨h.lines.map (·.field)⟩

def head : ResponseHead := ⟨h.start, h.fields⟩

def opening : Bytes := h.startLine ++ Bytes.crlf ++ h.lines.flatMap FieldLine.bytes

def bytes : Bytes := h.opening ++ Bytes.crlf

def push (l : FieldLine) : WrittenHead := { h with lines := h.lines ++ [l] }

theorem lines_push (l : FieldLine) : (h.push l).lines = h.lines ++ [l] := rfl

theorem fields_push (l : FieldLine) : (h.push l).fields = h.fields.push l.field := by
  simp [fields, push, Fields.push]

theorem opening_push (l : FieldLine) : (h.push l).opening = h.opening ++ l.bytes := by
  simp [opening, push]

theorem count_fields : h.fields.count = h.lines.length := List.length_map _

end WrittenHead

/-- Interim heads and the final one that comes after them. -/
structure WrittenHeads where
  interim : List WrittenHead
  final : WrittenHead
  passed : ∀ h ∈ interim, Parser.isInterim h.start.status = true
  stays : Parser.isInterim final.start.status = false

def WrittenHeads.bytes (heads : WrittenHeads) : Bytes :=
  heads.interim.flatMap WrittenHead.bytes ++ heads.final.bytes

namespace ResponseHead

variable {start : StatusLine}

theorem finalAfter_lines (lines : List FieldLine) (rest : Bytes) :
    finalAfter (some start) (lines.flatMap FieldLine.bytes ++ rest) =
      finalAfter (some start) rest := by
  induction lines with
  | nil => rfl
  | cons l lines ih =>
    have hne : l.line ≠ [] := List.isEmpty_eq_false_iff.1 l.line_ne_nil
    rw [List.flatMap_cons, List.append_assoc, finalAfter_fieldLine (l.splitLine_bytes _) hne, ih]

theorem final?_head (h : WrittenHead) (rest : Bytes) : final? (h.bytes ++ rest) =
    if Parser.isInterim h.start.status then final? rest else some (h.start.status, rest) := by
  have hline := StatusLine.splitLine_written h.valid h.written
    (h.lines.flatMap FieldLine.bytes ++ (Bytes.crlf ++ rest))
  have hbytes : h.bytes ++ rest = h.startLine ++ Bytes.crlf ++
      (h.lines.flatMap FieldLine.bytes ++ (Bytes.crlf ++ rest)) := by
    simp [WrittenHead.bytes, WrittenHead.opening]
  rw [final?, hbytes, finalAfter_startLine hline, StatusLine.read_written h.valid h.written]
  simp only [finalAfter_lines, finalAfter_emptyLine (Bytes.splitLine_empty rest)]
  rfl

theorem final?_heads (heads : WrittenHeads) (rest : Bytes) :
    final? (heads.bytes ++ rest) = some (heads.final.start.status, rest) := by
  obtain ⟨interim, final, passed, stays⟩ := heads
  simp only [WrittenHeads.bytes]
  -- Head by head: the status of an interim one tells that it is not the final one.
  induction interim with
  | nil => simp [final?_head, stays]
  | cons h interim ih =>
    obtain ⟨hpassed, passed⟩ := List.forall_mem_cons.1 passed
    rw [List.flatMap_cons, List.append_assoc, List.append_assoc, final?_head, if_pos hpassed,
      ← List.append_assoc]
    exact ih passed

end ResponseHead

end HttpClient
