import HttpClient.Proofs.Response.WrittenHead
set_option autoImplicit false

/-!
The grammar of a chunked body. What is read of a size line is exactly what the grammar says of it,
but for the octets that may stand around the digits: there the reader passes over line feeds,
carriage returns and form feeds too, and nothing of an extension is looked at.
-/

namespace HttpClient

namespace Chunk

def isHexDigit (b : UInt8) : Bool :=
  (48 ≤ b && b ≤ 57) || (97 ≤ b && b ≤ 102) || (65 ≤ b && b ≤ 70)

def hexValue (b : UInt8) : Nat :=
  if b ≤ 57 then b.toNat - 48 else if b ≤ 70 then b.toNat - 55 else b.toNat - 87

def isSpacing (b : UInt8) : Bool := b == 32 || b == 9

/-- The line names a size in one to sixteen digits, with such octets around them, and an extension
may follow. -/
inductive Names (around : UInt8 → Bool) : Bytes → Nat → Prop where
  | intro {before digits after extension : Bytes}
      (padding : ∀ b ∈ before ++ after, around b = true)
      (hex : ∀ b ∈ digits, isHexDigit b = true) (nonempty : digits ≠ []) (few : digits.length ≤ 16)
      (opens : ∀ b, extension.head? = some b → b = 59) :
      Names around (before ++ digits ++ after ++ extension)
        (Numeral.value 16 (digits.map hexValue))

/-- A size line as it should be: spaces and tabs around the digits, and no CR or LF anywhere. -/
structure Strict (line : Bytes) (size : Nat) : Prop where
  names : Names isSpacing line size
  no_cr : Bytes.cr ∉ line
  no_lf : Bytes.lf ∉ line

/-- The line holds no CR and no LF, nor a form feed before its extension. -/
structure Plain (line : Bytes) : Prop where
  no_cr : Bytes.cr ∉ line
  no_lf : Bytes.lf ∉ line
  no_ff : 12 ∉ line.takeWhile (· != 59)

section Octets

theorem forall_octet {p : UInt8 → Prop} (h : ∀ n < 256, p (.ofNat n)) (b : UInt8) : p b := by
  have hb := h b.toNat b.toNat_lt
  rwa [UInt8.ofNat_toNat] at hb

theorem digitOf?_octet : ∀ b : UInt8, Numeral.digitOf? 16 (Char.ofUInt8 b) =
    if isHexDigit b then some (hexValue b) else none :=
  forall_octet (by decide +kernel)

theorem plain_of_isHexDigit : ∀ b : UInt8, isHexDigit b = true →
    Bytes.isBlank b = false ∧ b ≠ 59 ∧ b ≠ 12 :=
  forall_octet (by decide +kernel)

theorem isSpacing_iff : ∀ b : UInt8, isSpacing b = true ↔
    Bytes.isBlank b = true ∧ b ≠ Bytes.cr ∧ b ≠ Bytes.lf ∧ b ≠ 12 :=
  forall_octet (by decide +kernel)

theorem ne_semicolon_of_isBlank {b : UInt8} (h : Bytes.isBlank b = true) : b ≠ 59 := by
  rintro rfl
  cases h

end Octets

variable {line digits : Bytes} {n : Nat}

theorem mapM_octets {ds : List Nat} :
    (digits.map Char.ofUInt8).mapM (Numeral.digitOf? 16) = some ds ↔
      (∀ b ∈ digits, isHexDigit b = true) ∧ ds = digits.map hexValue := by
  induction digits generalizing ds with
  | nil => exact ⟨fun h => ⟨by simp, (Option.some.inj h).symm⟩, fun h => congrArg some h.2.symm⟩
  | cons b digits ih =>
    simp only [List.map_cons, List.mapM_cons, bind, Option.bind_eq_some_iff, digitOf?_octet, pure,
      ih, Option.some.injEq, List.forall_mem_cons]
    constructor
    · rintro ⟨d, hd, tail, ⟨hhex, rfl⟩, rfl⟩
      obtain ⟨hb, hd⟩ := Option.ite_none_right_eq_some.1 hd
      exact ⟨⟨hb, hhex⟩, by rw [Option.some.inj hd]⟩
    · rintro ⟨⟨hb, hhex⟩, rfl⟩
      exact ⟨hexValue b, if_pos hb, _, ⟨hhex, rfl⟩, rfl⟩

theorem read?_octets : Numeral.read? 16 (digits.map Char.ofUInt8) = some n ↔
    digits ≠ [] ∧ (∀ b ∈ digits, isHexDigit b = true) ∧
      n = Numeral.value 16 (digits.map hexValue) := by
  by_cases hne : digits = []
  · subst hne
    exact ⟨fun h => absurd h (by simp [Numeral.read?]), fun h => absurd rfl h.1⟩
  · have hnonempty : (digits.map Char.ofUInt8).isEmpty = false := by simpa using hne
    simp only [Numeral.read?, hnonempty, Bool.false_eq_true, ite_false, Option.map_eq_some_iff,
      mapM_octets]
    constructor
    · rintro ⟨ds, ⟨hhex, rfl⟩, rfl⟩
      exact ⟨hne, hhex, rfl⟩
    · rintro ⟨-, hhex, rfl⟩
      exact ⟨_, ⟨hhex, rfl⟩, rfl⟩

/-- A size is read off exactly the lines that name it with blanks around the digits. -/
theorem readSize_eq_ok_iff : readSize line = .ok n ↔ Names Bytes.isBlank line n := by
  constructor
  · intro h
    obtain ⟨before, digits, after, htrim, hline, hpadding, -⟩ :=
      Text.exists_stripped Bytes.isBlank (line.takeWhile (· != 59))
    have hdigits : Bytes.trim (line.takeWhile (· != 59)) = digits := htrim
    simp only [readSize, hdigits] at h
    split at h
    next m hread =>
      split at h
      next hfew =>
        cases h
        obtain ⟨hne, hhex, rfl⟩ := read?_octets.1 hread
        have hopens : ∀ b, (line.dropWhile (· != 59)).head? = some b → b = 59 := by
          intro b hb
          have hnot := List.head?_dropWhile_not (· != 59) line
          rw [hb] at hnot
          simpa using hnot
        have hnames := Names.intro hpadding hhex hne hfew hopens
        rwa [← hline, List.takeWhile_append_dropWhile] at hnames
      next => cases h
    next => cases h
  · rintro ⟨hpadding, hhex, hne, hfew, hopens⟩
    refine readSize_padded hpadding (fun b hb => ?_) hfew (read?_octets.2 ⟨hne, hhex, rfl⟩) hopens
    exact ⟨(plain_of_isHexDigit b (hhex b hb)).1, (plain_of_isHexDigit b (hhex b hb)).2.1⟩

theorem names_unique {m : Nat} (hm : Names Bytes.isBlank line m)
    (hn : Names Bytes.isBlank line n) : m = n := by
  rw [← readSize_eq_ok_iff] at hm hn
  exact Except.ok.inj (hm.symm.trans hn)

theorem takeWhile_names {around : UInt8 → Bool} {before digits after extension : Bytes}
    (hb : ∀ b, around b = true → b ≠ 59) (hpadding : ∀ b ∈ before ++ after, around b = true)
    (hhex : ∀ b ∈ digits, isHexDigit b = true) (ho : ∀ b, extension.head? = some b → b = 59) :
    (before ++ digits ++ after ++ extension).takeWhile (· != 59) = before ++ digits ++ after := by
  refine takeWhile_extension (fun b hm => ?_) ho
  rw [List.append_assoc, List.mem_append, List.mem_append] at hm
  rcases hm with hm | hm | hm
  · exact hb b (hpadding b (List.mem_append_left _ hm))
  · exact (plain_of_isHexDigit b (hhex b hm)).2.1
  · exact hb b (hpadding b (List.mem_append_right _ hm))

theorem strict_iff (h : Names Bytes.isBlank line n) : Strict line n ↔ Plain line := by
  constructor
  · rintro ⟨⟨hpadding, hhex, -, -, hopens⟩, hcr, hlf⟩
    refine ⟨hcr, hlf, ?_⟩
    have hnone : ∀ b, isSpacing b = true → b ≠ 59 := fun b hb =>
      ne_semicolon_of_isBlank ((isSpacing_iff b).1 hb).1
    rw [takeWhile_names hnone hpadding hhex hopens, List.append_assoc, List.mem_append,
      List.mem_append]
    rintro (hm | hm | hm)
    · exact ((isSpacing_iff 12).1 (hpadding 12 (List.mem_append_left _ hm))).2.2.2 rfl
    · exact (plain_of_isHexDigit 12 (hhex 12 hm)).2.2 rfl
    · exact ((isSpacing_iff 12).1 (hpadding 12 (List.mem_append_right _ hm))).2.2.2 rfl
  · rintro ⟨hcr, hlf, hff⟩
    refine ⟨?_, hcr, hlf⟩
    obtain @⟨before, digits, after, extension, hpadding, hhex, hne, hfew, hopens⟩ := h
    rw [takeWhile_names (fun b => ne_semicolon_of_isBlank) hpadding hhex hopens] at hff
    refine .intro (fun b hb => (isSpacing_iff b).2 ⟨hpadding b hb, ?_, ?_, ?_⟩) hhex hne hfew hopens
    all_goals
      rintro rfl
      simp_all

end Chunk

structure SizedChunk where
  line : Bytes
  data : Bytes
  names : Chunk.Names Bytes.isBlank line data.length
  unbroken : Bytes.splitLine line = none
  filled : data ≠ []

namespace SizedChunk

def bytes (c : SizedChunk) : Bytes := c.line ++ Bytes.crlf ++ c.data ++ Bytes.crlf

theorem splitLine_bytes (c : SizedChunk) (rest : Bytes) :
    Bytes.splitLine (c.bytes ++ rest) = some (c.line, c.data ++ (Bytes.crlf ++ rest)) := by
  rw [bytes, List.append_assoc, List.append_assoc]
  exact Bytes.splitLine_crlf c.unbroken _

end SizedChunk

/-- A whole chunked body as it came: chunks, the line of the last one, and trailers. -/
structure ChunkedBody where
  chunks : List SizedChunk
  last : Bytes
  names : Chunk.Names Bytes.isBlank last 0
  unbroken : Bytes.splitLine last = none
  trailers : List FieldLine

namespace ChunkedBody

variable (b : ChunkedBody)

def opening : Bytes :=
  b.chunks.flatMap SizedChunk.bytes ++ b.last ++ Bytes.crlf ++ b.trailers.flatMap FieldLine.bytes

def bytes : Bytes := b.opening ++ Bytes.crlf

def payload : Bytes := b.chunks.flatMap SizedChunk.data

def fields : Fields := ⟨b.trailers.map (·.field)⟩

theorem count_fields : b.fields.count = b.trailers.length := List.length_map _

def sizeLines : List Bytes := b.chunks.map SizedChunk.line ++ [b.last]

def Strict : Prop :=
  (∀ c ∈ b.chunks, Chunk.Strict c.line c.data.length) ∧ Chunk.Strict b.last 0

theorem strict_iff_plain : b.Strict ↔ ∀ line ∈ b.sizeLines, Chunk.Plain line := by
  have hchunks : (∀ c ∈ b.chunks, Chunk.Strict c.line c.data.length) ↔
      ∀ c ∈ b.chunks, Chunk.Plain c.line :=
    forall₂_congr fun c _ => Chunk.strict_iff c.names
  rw [Strict, hchunks, Chunk.strict_iff b.names, sizeLines, List.forall_mem_append,
    List.forall_mem_map, List.forall_mem_singleton]

theorem sizeLines_of_octets {chunks chunks' : List SizedChunk}
    {last last' tail tail' rest rest' : Bytes} (names : Chunk.Names Bytes.isBlank last 0)
    (names' : Chunk.Names Bytes.isBlank last' 0) (hlast : Bytes.splitLine tail = some (last, rest))
    (hlast' : Bytes.splitLine tail' = some (last', rest'))
    (h : chunks.flatMap SizedChunk.bytes ++ tail = chunks'.flatMap SizedChunk.bytes ++ tail') :
    chunks.map SizedChunk.line = chunks'.map SizedChunk.line ∧ last = last' := by
  -- a line that names the size of a chunk does not name 0
  have filled : ∀ c : SizedChunk, ¬Chunk.Names Bytes.isBlank c.line 0 := fun c hzero =>
    c.filled (List.length_eq_zero_iff.1 (Chunk.names_unique c.names hzero))
  induction chunks generalizing chunks' with
  | nil =>
    cases chunks' with
    | nil =>
      have h : tail = tail' := h
      rw [h, hlast'] at hlast
      cases hlast
      exact ⟨rfl, rfl⟩
    | cons c chunks' =>
      rw [List.flatMap_cons, List.append_assoc] at h
      have h : tail = c.bytes ++ (chunks'.flatMap SizedChunk.bytes ++ tail') := h
      rw [h, c.splitLine_bytes] at hlast
      cases hlast
      exact absurd names (filled c)
  | cons c chunks ih =>
    rw [List.flatMap_cons, List.append_assoc] at h
    have hfirst := c.splitLine_bytes (chunks.flatMap SizedChunk.bytes ++ tail)
    rw [h] at hfirst
    cases chunks' with
    | nil =>
      have hfirst : Bytes.splitLine tail' = _ := hfirst
      rw [hlast'] at hfirst
      cases hfirst
      exact absurd names' (filled c)
    | cons c' chunks' =>
      rw [List.flatMap_cons, List.append_assoc, c'.splitLine_bytes, Option.some.injEq,
        Prod.mk.injEq] at hfirst
      obtain ⟨hline, hrest⟩ := hfirst
      have hsize : c'.data.length = c.data.length :=
        Chunk.names_unique (hline ▸ c'.names) c.names
      obtain ⟨-, hrest⟩ := List.append_inj hrest hsize
      obtain ⟨hlines, rfl⟩ := ih (List.append_cancel_left hrest).symm
      exact ⟨by rw [List.map_cons, List.map_cons, hline, hlines], rfl⟩

theorem mem_sizeLines_of_splitLine {line after rest : Bytes}
    (h : Bytes.splitLine (b.bytes ++ rest) = some (line, after)) : line ∈ b.sizeLines := by
  obtain ⟨chunks, last, names, unbroken, trailers⟩ := b
  cases chunks with
  | nil =>
    have hlast :=
      Bytes.splitLine_crlf unbroken (trailers.flatMap FieldLine.bytes ++ (Bytes.crlf ++ rest))
    simp only [bytes, opening, List.flatMap_nil, List.nil_append, List.append_assoc] at h hlast
    rw [hlast] at h
    cases h
    simp [sizeLines]
  | cons c chunks =>
    simp only [bytes, opening, List.flatMap_cons, List.append_assoc] at h
    rw [c.splitLine_bytes] at h
    cases h
    simp [sizeLines]

theorem sizeLines_unique {b b' : ChunkedBody} (h : b.bytes = b'.bytes) :
    b.sizeLines = b'.sizeLines := by
  simp only [bytes, opening, List.append_assoc] at h
  have hsplit := Bytes.splitLine_crlf b.unbroken (b.trailers.flatMap FieldLine.bytes ++ Bytes.crlf)
  have hsplit' :=
    Bytes.splitLine_crlf b'.unbroken (b'.trailers.flatMap FieldLine.bytes ++ Bytes.crlf)
  rw [List.append_assoc] at hsplit hsplit'
  obtain ⟨hlines, hlast⟩ := sizeLines_of_octets b.names b'.names hsplit hsplit' h
  rw [sizeLines, sizeLines, hlines, hlast]

end ChunkedBody
end HttpClient
