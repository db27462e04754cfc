import HttpClient.Proofs.Fields.Values
import HttpClient.Proofs.Request.Head
import HttpClient.Proofs.Response.Intake
import Mathlib.Data.List.Forall2
set_option autoImplicit false

/-!
Lists of fields hold only what may be written. Appending checks a field before it takes it, the
reader of responses does not ask it but checks lines of its own, and every other operation keeps
what is there; so a list can always be encoded, and its lines are read back as what they say.
-/

namespace HttpClient

namespace Fields

def Valid (h : Fields) : Prop := ∀ f ∈ h.entries, f.Valid

variable {h h' other : Fields} {n value : String}

theorem append_eq_ok_iff :
    h.append n value = .ok h' ↔ Field.Valid ⟨n, value⟩ ∧ h' = h.push ⟨n, value⟩ := by
  constructor
  · intro ha
    refine ⟨?_, eq_push_of_append ha⟩
    rw [← Field.check_eq_ok_iff]
    cases hc : Field.check ⟨n, value⟩ with
    | ok _ => rfl
    | error error =>
      simp only [append, hc, bind, Except.bind] at ha
      cases ha
  · rintro ⟨valid, rfl⟩
    simp only [append, (Field.check_eq_ok_iff _).2 valid, bind, Except.bind, pure, Except.pure]

theorem valid_empty : empty.Valid := by simp [Valid, empty]

theorem Valid.push {f : Field} (valid : h.Valid) (hf : f.Valid) : (h.push f).Valid :=
  List.forall_mem_append.2 ⟨valid, List.forall_mem_singleton.2 hf⟩

theorem Valid.append (valid : h.Valid) (ha : h.append n value = .ok h') : h'.Valid := by
  obtain ⟨hf, rfl⟩ := append_eq_ok_iff.1 ha
  exact valid.push hf

theorem Valid.foldlM {pairs : List (String × String)} (valid : h.Valid)
    (hf : pairs.foldlM (fun h (name, value) => h.append name value) h = .ok h') : h'.Valid := by
  induction pairs generalizing h with
  | nil =>
    cases hf
    exact valid
  | cons pair pairs ih =>
    rw [List.foldlM_cons] at hf
    cases ha : h.append pair.1 pair.2 with
    | error error =>
      simp only [ha, bind, Except.bind] at hf
      cases hf
    | ok g =>
      simp only [ha, bind, Except.bind] at hf
      exact ih (valid.append ha) hf

theorem valid_replaceFirst {fs : List Field} (hv : isValue value = true)
    (valid : ∀ f ∈ fs, f.Valid) : ∀ f ∈ replaceFirst n value fs, f.Valid := by
  induction fs with
  | nil => simp [replaceFirst]
  | cons f fs ih =>
    obtain ⟨hf, hfs⟩ := List.forall_mem_cons.1 valid
    rw [replaceFirst]
    split
    · refine List.forall_mem_cons.2 ⟨⟨hf.1, hv⟩, fun g hg => ?_⟩
      exact hfs g (List.mem_of_mem_filter hg)
    · exact List.forall_mem_cons.2 ⟨hf, ih hfs⟩

theorem Valid.set (valid : h.Valid) (hs : h.set n value = .ok h') : h'.Valid := by
  have hf := valid_of_set hs
  rw [eq_of_set hs]
  split
  · exact valid_replaceFirst hf.2 valid
  · exact valid.push hf

theorem Valid.setIfAbsent (valid : h.Valid) (hs : h.setIfAbsent n value = .ok h') : h'.Valid := by
  unfold Fields.setIfAbsent at hs
  split at hs
  · cases hs
    exact valid
  · exact valid.append hs

theorem Valid.remove (valid : h.Valid) (n : String) : (h.remove n).2.Valid := fun f hf =>
  valid f (List.mem_of_mem_filter hf)

theorem Valid.mergeMissing (valid : h.Valid) (hother : other.Valid) :
    (h.mergeMissing other).Valid :=
  List.forall_mem_append.2 ⟨valid, fun f hf => hother f (List.mem_of_mem_filter hf)⟩

end Fields

def Phase.lists : Phase → List Fields
  | .fieldLines _ fields _ | .trailers fields _ | .complete (some fields) => [fields]
  | _ => []

def Event.lists : Event → List Fields
  | .head ⟨_, fields⟩ _ => [fields]
  | .chunk _ => []
  | .complete trailers => [trailers]

namespace Parser

variable {p q : Parser} {phase : Phase} {rest data : Bytes} {e : Event}

/-- Every list that the parser has begun holds only fields that may be written. -/
def Clean (phase : Phase) : Prop := ∀ h ∈ phase.lists, h.Valid

theorem clean_bodyPhase (framing : Framing) : Clean (bodyPhase framing) := by
  unfold bodyPhase
  split <;> simp [Clean, Phase.lists, Fields.valid_empty]

theorem clean_afterCounted (left : Nat) : Clean (afterCounted left) := by
  cases left <;> simp [Clean, afterCounted, Phase.lists, Fields.valid_empty]

theorem clean_afterChunkData (left : Nat) : Clean (afterChunkData left) := by
  cases left <;> simp [Clean, afterChunkData, Phase.lists]

theorem clean_of_next (clean : Clean p.phase) (hm : p.move = .next phase rest) : Clean phase := by
  cases hp : p.phase with
  | statusLine =>
    obtain ⟨start, line, -, -, -, -, rfl⟩ := next_of_statusLine hp hm
    simp [Clean, Phase.lists, Fields.valid_empty]
  | fieldLines start fields used =>
    rw [hp] at clean
    have valid : fields.Valid := clean fields List.mem_cons_self
    rcases next_of_fieldLines hp hm with ⟨l, -, -, rfl⟩ | ⟨-, -, -, rfl⟩
    · exact List.forall_mem_singleton.2 (valid.push l.valid)
    · simp [Clean, Phase.lists]
  | trailers fields used =>
    rw [hp] at clean
    have valid : fields.Valid := clean fields List.mem_cons_self
    rcases next_of_trailers hp hm with ⟨l, -, -, rfl⟩ | ⟨-, rfl⟩
    · exact List.forall_mem_singleton.2 (valid.push l.valid)
    · exact List.forall_mem_singleton.2 valid
  | chunkSize =>
    simp only [move, hp] at hm
    obtain ⟨size, rfl⟩ := next_of_moveChunkLine hm
    cases size <;> simp [Clean, afterChunkSize, Phase.lists, Fields.valid_empty]
  | lastChunk =>
    simp only [move, hp] at hm
    obtain ⟨size, rfl⟩ := next_of_moveChunkLine hm
    simp [Clean, Phase.lists, Fields.valid_empty]
  | chunkEnd =>
    obtain ⟨-, rfl⟩ := next_of_chunkEnd hp hm
    simp [Clean, Phase.lists]
  | complete trailers => cases trailers <;> simp [move, hp] at hm
  | _ => simp only [move, hp, takeBody_ne_next, reduceCtorEq] at hm

theorem clean_of_event (clean : Clean p.phase) (hm : p.move = .event e phase rest) :
    (∀ h ∈ e.lists, h.Valid) ∧ Clean phase := by
  cases hp : p.phase with
  | fieldLines start fields used =>
    rw [hp] at clean
    obtain ⟨-, -, -, bodiless, framing, rfl, -, rfl⟩ := event_of_fieldLines hp hm
    exact ⟨clean, clean_bodyPhase framing⟩
  | counted left =>
    rw [move_counted p left hp] at hm
    obtain ⟨data, rfl, -, -, -, rfl⟩ := event_of_takeBody hm
    exact ⟨by simp [Event.lists], clean_afterCounted _⟩
  | chunkData left =>
    rw [move_chunkData p left hp] at hm
    obtain ⟨data, rfl, -, -, -, rfl⟩ := event_of_takeBody hm
    exact ⟨by simp [Event.lists], clean_afterChunkData _⟩
  | untilClose =>
    rw [move_untilClose p hp] at hm
    obtain ⟨data, rfl, -, -, -, rfl⟩ := event_of_takeBody hm
    exact ⟨by simp [Event.lists], by simp [Clean, Phase.lists]⟩
  | complete trailers =>
    rw [hp] at clean
    cases trailers <;> simp only [move, hp] at hm <;> cases hm
    exact ⟨clean, by simp [Clean, Phase.lists]⟩
  | statusLine => exact absurd hm (ne_event_of_statusLine hp)
  | _ =>
    simp only [move, hp, moveChunkLine, moveChunkEnd, moveTrailers, headTooLarge] at hm
    repeat' split at hm
    all_goals cases hm

theorem clean_of_wait (clean : Clean p.phase) (hm : p.move = .wait phase) : Clean phase := by
  rcases move_wait_cases hm with rfl | ⟨-, rfl, -⟩
  · exact clean
  · simp [Clean, Phase.lists]

theorem clean_of_advance (clean : Clean p.phase) :
    (∀ e, p.advance.1 = .ok (some e) → ∀ h ∈ e.lists, h.Valid) ∧ Clean p.advance.2.phase := by
  fun_induction advance p with
  | case1 p phase hm => exact ⟨by simp, clean_of_wait clean hm⟩
  | case2 p phase rest hm ih => exact ih (clean_of_next clean hm)
  | case3 p e phase rest hm =>
    obtain ⟨reported, kept⟩ := clean_of_event clean hm
    refine ⟨fun e' he => ?_, by simpa using kept⟩
    cases he
    exact reported
  | case4 p error hm => exact ⟨by simp, by simp [Clean, Phase.lists]⟩

theorem clean_of_feed (clean : Clean p.phase) (data : Bytes) :
    (∀ e, (p.feed data).1 = .ok (some e) → ∀ h ∈ e.lists, h.Valid) ∧
      Clean (p.feed data).2.phase := by
  unfold feed
  split
  · exact ⟨by simp, clean⟩
  · exact clean_of_advance (p := { p with buffer := p.buffer ++ data }) clean

/-- A parser, whatever it was made for, fed with and told so far. -/
inductive Used : Parser → Prop where
  | new (limits : Limits) : Used (new limits)
  | forMethod (method : String) (limits : Limits) : Used (forMethod method limits)
  | feed {p : Parser} (used : Used p) (data : Bytes) : Used (p.feed data).2
  | finish {p : Parser} (used : Used p) : Used p.finish
  | expectNoBody {p : Parser} (used : Used p) (flag : Bool) : Used { p with bodiless := flag }
  | reset {p : Parser} (used : Used p) : Used p.reset

theorem Used.clean (used : p.Used) : Clean p.phase := by
  induction used with
  | new limits => simp [Parser.new, Clean, Phase.lists]
  | forMethod method limits => simp [Parser.forMethod, Parser.new, Clean, Phase.lists]
  | feed used data ih => exact (clean_of_feed ih data).2
  | finish used ih =>
    unfold Parser.finish
    split
    · exact List.forall_mem_singleton.2 Fields.valid_empty
    · exact ih
  | expectNoBody used flag ih => exact ih
  | reset used ih => simp [Parser.reset, Clean, Phase.lists]

end Parser

/-- A list that was reported by a parser, or was made by the operations on lists, out of nothing or
of such lists. -/
inductive Fields.Made : Fields → Prop where
  | empty : Made empty
  | ofPairs {pairs : List (String × String)} {h : Fields} (ok : ofPairs pairs = .ok h) : Made h
  | append {h h' : Fields} {n value : String} (made : Made h) (ok : h.append n value = .ok h') :
      Made h'
  | set {h h' : Fields} {n value : String} (made : Made h) (ok : h.set n value = .ok h') : Made h'
  | setIfAbsent {h h' : Fields} {n value : String} (made : Made h)
      (ok : h.setIfAbsent n value = .ok h') : Made h'
  | remove {h : Fields} (made : Made h) (n : String) : Made (h.remove n).2
  | mergeMissing {h other : Fields} (made : Made h) (also : Made other) :
      Made (h.mergeMissing other)
  | head {p : Parser} {data : Bytes} {head : ResponseHead} {bodiless : Bool} (used : p.Used)
      (reported : (p.feed data).1 = .ok (some (.head head bodiless))) : Made head.fields
  | trailers {p : Parser} {data : Bytes} {trailers : Fields} (used : p.Used)
      (reported : (p.feed data).1 = .ok (some (.complete trailers))) : Made trailers

theorem Fields.Made.valid {h : Fields} (made : Made h) : h.Valid := by
  induction made with
  | empty => exact valid_empty
  | ofPairs ok => exact valid_empty.foldlM ok
  | append _ ok ih => exact ih.append ok
  | set _ ok ih => exact ih.set ok
  | setIfAbsent _ ok ih => exact ih.setIfAbsent ok
  | remove _ n ih => exact ih.remove n
  | mergeMissing _ _ ih also => exact ih.mergeMissing also
  | head used reported =>
    exact (Parser.clean_of_feed used.clean _).1 _ reported _ List.mem_cons_self
  | trailers used reported =>
    exact (Parser.clean_of_feed used.clean _).1 _ reported _ List.mem_cons_self

namespace Field

/-- The other field has the same name, and the value without the spaces and tabs at its ends. -/
structure Strips (f g : Field) : Prop where
  name : g.name = f.name
  unpadded : Unpadded g.value
  value : ∃ before after : List Char, f.value.toList = before ++ g.value.toList ++ after ∧
    ∀ c ∈ before ++ after, isPadding c = true

variable {f : Field}

/-- Whatever a valid value holds, its line is read as the name and the stripped value. -/
theorem read_text (valid : f.Valid) :
    ∃ g, read (Bytes.ofChars f.text) = .ok g ∧ f.Strips g := by
  obtain ⟨before, middle, after, -, hvalue, hpadding, hhead, hlast⟩ :=
    Text.exists_stripped isPadding f.value.toList
  have unpadded : Unpadded (String.ofList middle) := by
    rw [unpadded_iff, String.toList_ofList]
    exact ⟨hhead, hlast⟩
  have hmiddle : isValue (String.ofList middle) = true := by
    have hall := List.all_eq_true.1 valid.2
    rw [isValue, String.toList_ofList, List.all_eq_true]
    exact fun c hc => hall c (by simp [hvalue, hc])
  let l : FieldLine := ⟨⟨f.name, String.ofList middle⟩, ' ' :: before, after, ⟨valid.1, hmiddle⟩,
    unpadded, List.forall_mem_cons.2 ⟨rfl, hpadding⟩⟩
  have hline : Bytes.ofChars f.text = l.line := by
    simp [l, FieldLine.line, FieldLine.text, text, hvalue]
  refine ⟨l.field, hline ▸ l.read_line, rfl, unpadded, before, after, ?_, hpadding⟩
  rw [String.toList_ofList, hvalue]

end Field

namespace RequestHead

variable {r : RequestHead}

theorem encode_of_valid (valid : r.fields.Valid) : r.encode =
    if isToken r.method = false then .error (.method r.method)
    else if isTarget r.target = false then .error (.target r.target)
    else .ok r.lines := by
  have hfields : r.fields.entries.forM Field.check = .ok () := Field.forM_check_eq_ok_iff.2 valid
  unfold encode check
  cases isToken r.method <;> cases isTarget r.target <;>
    simp [hfields, bind, Except.bind, throw, throwThe, MonadExceptOf.throw, pure, Except.pure]

end RequestHead

namespace Fields

/-- However a list came about, each of its fields could be appended again; so a head with it is
encoded unless its method or its target is wrong; and the lines between the start line and the empty
line are read as the fields of the list, in order, without the spaces and tabs around values. -/
theorem made_fields_accepted {h : Fields} (made : h.Made) :
    (∀ f ∈ h.entries, ∀ g : Fields, g.append f.name f.value = .ok (g.push f)) ∧
    ∀ (method target : String) (version : Version),
      let r : RequestHead := ⟨method, target, version, h⟩
      (r.encode =
        if isToken method = false then .error (.method method)
        else if RequestHead.isTarget target = false then .error (.target target)
        else .ok r.lines) ∧
      ∀ b, r.encode = .ok b → ∃ lines : List Bytes,
        b = Bytes.joinLines (Bytes.ofChars r.startText :: lines ++ [[]]) ∧
          (∀ line ∈ Bytes.ofChars r.startText :: lines, Bytes.Unbroken line) ∧
          List.Forall₂ (fun f line => ∃ g, Field.read line = .ok g ∧ f.Strips g) h.entries
            lines := by
  have valid := made.valid
  refine ⟨fun f hf g => append_eq_ok_iff.2 ⟨valid f hf, rfl⟩, fun method target version => ?_⟩
  intro r
  refine ⟨RequestHead.encode_of_valid (r := r) valid, fun b hb => ?_⟩
  obtain ⟨hr, rfl⟩ := RequestHead.encode_eq_ok_iff.1 hb
  refine ⟨(h.entries.map Field.text).map Bytes.ofChars, RequestHead.lines_eq r,
    fun line hm => (RequestHead.unbroken_lines hr line hm).1, ?_⟩
  rw [List.map_map, List.forall₂_map_right_iff, List.forall₂_same]
  exact fun f hf => Field.read_text (valid f hf)

/-- The head of a response in which a colon, a tab and a letter of two octets stand in a value. -/
def coded : Bytes :=
  Bytes.ofText "HTTP/1.1 200 OK\r\nContent-Encoding: gzip\r\nX-Text:  a:\tb, é \r\n\r\n"

/-- Its fields when the coding is gone and one has been added, with blanks around the value. -/
def decoded : Fields := ⟨[⟨"X-Text", "a:\tb, é"⟩, ⟨"X-Padded", "\t c "⟩]⟩

theorem made_decoded : decoded.Made := by
  let first : Fields := ⟨[⟨"Content-Encoding", "gzip"⟩, ⟨"X-Text", "a:\tb, é"⟩]⟩
  have reported : ((Parser.forMethod "GET" .standard).feed coded).1 =
      .ok (some (.head ⟨⟨.http11, 200, "OK"⟩, first⟩ false)) := by decide +kernel
  have added : (first.remove "content-encoding").2.append "X-Padded" "\t c " = .ok decoded := by
    decide +kernel
  have head := Made.head (.forMethod "GET" .standard) reported
  exact (head.remove "content-encoding").append added

theorem made_fields_accepted_decoded :
    let r : RequestHead := ⟨"GET", "/", .http11, decoded⟩
    decoded.Made ∧ ∃ lines : List Bytes,
      r.encode = .ok (Bytes.joinLines (Bytes.ofChars r.startText :: lines ++ [[]])) ∧
        List.Forall₂ (fun f line => ∃ g, Field.read line = .ok g ∧ f.Strips g) decoded.entries
          lines := by
  intro r
  have accepted := (made_fields_accepted made_decoded).2 "GET" "/" .http11
  have hr : r.encode = .ok r.lines := accepted.1.trans (by decide +kernel)
  obtain ⟨lines, hlines, -, hread⟩ := accepted.2 _ hr
  exact ⟨made_decoded, lines, hlines ▸ hr, hread⟩

end Fields
end HttpClient
