import HttpClient.Proofs.Fields.Framing
import HttpClient.Proofs.Response.Fragments
import HttpClient.Proofs.Response.Lines
set_option autoImplicit false

/-!
Reading undoes writing. A response that is written by the grammar comes back as its head, the
stretches of its body and its trailers, and what stands behind it is left untouched.
-/

namespace HttpClient

/-- What follows a head, in one of the two framings that end by themselves. -/
inductive WrittenBody where
  | counted (data : Bytes)
  | chunked (chunks : List Bytes) (nonempty : ∀ chunk ∈ chunks, chunk ≠ []) (last : LastLine)
      (trailers : List FieldLine)

namespace WrittenBody

def payload : WrittenBody → Bytes
  | .counted data => data
  | .chunked chunks .. => chunks.flatten

def pieces : WrittenBody → List Bytes
  | .counted [] => []
  | .counted (b :: data) => [b :: data]
  | .chunked chunks .. => chunks

def trailers : WrittenBody → Fields
  | .counted _ => .empty
  | .chunked _ _ _ lines => ⟨lines.map (·.field)⟩

def framing : WrittenBody → Framing
  | .counted data => .length data.length
  | .chunked .. => .chunked

def field : WrittenBody → Field
  | .counted data => ⟨"Content-Length", Numeral.decimal data.length⟩
  | .chunked .. => ⟨"Transfer-Encoding", "chunked"⟩

def bytes : WrittenBody → Bytes
  | .counted data => data
  | .chunked chunks _ last lines =>
    chunks.flatMap Chunk.encode ++ (last.bytes ++ (lines.flatMap FieldLine.bytes ++ Bytes.crlf))

theorem flatten_pieces (b : WrittenBody) : b.pieces.flatten = b.payload := by
  unfold pieces payload
  split <;> simp

theorem field_plain (b : WrittenBody) : b.field.Valid ∧ Unpadded b.field.value := by
  cases b with
  | counted data =>
    have hchars : ∀ c ∈ Numeral.print 10 data.length,
        isValueChar c = true ∧ isPadding c = false :=
      Numeral.print_chars (by decide) (by decide) (by decide)
    have hname : isToken "Content-Length" = true := by decide
    have htext : (field (.counted data)).value.toList = Numeral.print 10 data.length := by
      rw [field, Numeral.decimal, String.toList_ofList]
    refine ⟨⟨hname, ?_⟩, ?_⟩
    · rw [isValue, htext, List.all_eq_true]
      exact fun c hc => (hchars c hc).1
    · rw [unpadded_iff, htext]
      exact ⟨fun c hc => (hchars c (List.mem_of_head? hc)).2,
        fun c hc => (hchars c (List.mem_of_getLast? hc)).2⟩
  | chunked chunks nonempty last lines =>
    have hplain : Field.Valid ⟨"Transfer-Encoding", "chunked"⟩ ∧ Unpadded "chunked" := by decide
    exact hplain

end WrittenBody

/-- A final response with a body, and why its lines are well formed. -/
structure WrittenResponse where
  start : StatusLine
  fields : Fields
  body : WrittenBody
  final : 200 ≤ start.status ∧ start.status ≤ 599
  has_body : start.status ≠ 204 ∧ start.status ≠ 304
  reason : isValue start.reason = true
  accepted : ∀ f ∈ fields.entries, f.Valid ∧ Unpadded f.value
  uncoded : fields.contains "Transfer-Encoding" = false
  unstated : fields.contains "Content-Length" = false
  /-- An octet string in memory has a length that 64 bits hold. -/
  fits : body.payload.length ≤ Numeral.wordLimit

namespace WrittenResponse

def head (m : WrittenResponse) : ResponseHead := ⟨m.start, m.fields.push m.body.field⟩

def bytes (m : WrittenResponse) : Bytes :=
  m.start.line ++ Bytes.crlf ++
    (m.head.fields.entries.flatMap RequestHead.fieldLine ++ (Bytes.crlf ++ m.body.bytes))

theorem resolve_head (m : WrittenResponse) :
    Framing.resolve m.head.fields false = .ok m.body.framing := by
  have hfits := m.fits
  unfold head
  cases hb : m.body with
  | counted data =>
    rw [hb] at hfits
    exact (Framing.resolve_push_length_iff m.uncoded m.unstated).2 hfits
  | chunked chunks nonempty last lines => exact Framing.resolve_push_chunked m.uncoded m.unstated

theorem head_plain (m : WrittenResponse) :
    ∀ f ∈ m.head.fields.entries, f.Valid ∧ Unpadded f.value := by
  intro f hf
  rcases List.mem_append.1 hf with hf | hf
  · exact m.accepted f hf
  · rw [List.mem_singleton.1 hf]
    exact m.body.field_plain

end WrittenResponse

namespace Parser

@[simp] theorem headTooLarge_unlimited (size : Nat) :
    Limits.unlimited.headTooLarge size = false := rfl

/-- The buffer holds the rest of a message: these events are reported, and what is left over stands
behind the message. -/
def Finishes (p : Parser) (es : List Event) (left : Bytes) : Prop :=
  ∃ q, p.events = (es, none, q) ∧ q.phase = .complete none ∧ q.buffer = left

section Finishes

variable {p : Parser} {phase : Phase} {e : Event} {es : List Event} {rest left : Bytes}
  {start : StatusLine} {fields : Fields} {used : Nat}

theorem Finishes.next (hm : p.move = .next phase rest)
    (h : Finishes { p with phase := phase, buffer := rest } es left) : Finishes p es left := by
  obtain ⟨q, hq, hend⟩ := h
  exact ⟨q, (events_of_next hm).trans hq, hend⟩

theorem Finishes.event (hm : p.move = .event e phase rest)
    (h : Finishes (p.record e phase rest) es left) : Finishes p (e :: es) left := by
  obtain ⟨q, hq, hend⟩ := h
  refine ⟨q, ?_, hend⟩
  rw [events_of_event hm, hq]
  rfl

theorem finishes_complete {trailers : Fields} (hp : p.phase = .complete (some trailers)) :
    Finishes p [.complete trailers] p.buffer := by
  have hm : p.move = .event (.complete trailers) (.complete none) p.buffer := by rw [move, hp]
  have hwait : (p.record (.complete trailers) (.complete none) p.buffer).move =
      .wait (.complete none) := rfl
  exact .event hm ⟨_, events_of_wait hwait, rfl, rfl⟩

theorem addField_line (hl : p.limits = .unlimited) (l : FieldLine) :
    p.addField fields l.line = .ok (fields.push l.field) := by
  rw [addField, hl, l.read_line]
  rfl

theorem move_fieldLine {l : FieldLine} (hl : p.limits = .unlimited)
    (hp : p.phase = .fieldLines start fields used) (hb : p.buffer = l.bytes ++ rest) :
    p.move = .next (.fieldLines start (fields.push l.field) (used + l.line.length + 2)) rest := by
  have hsplit : Bytes.splitLine p.buffer = some (l.line, rest) := hb ▸ l.splitLine_bytes rest
  rw [move, hp]
  simp [moveFieldLines, hsplit, l.line_ne_nil, hl, addField_line hl]

theorem move_trailerLine {l : FieldLine} (hl : p.limits = .unlimited)
    (hp : p.phase = .trailers fields used) (hb : p.buffer = l.bytes ++ rest) :
    p.move = .next (.trailers (fields.push l.field) (used + l.line.length + 2)) rest := by
  have hsplit : Bytes.splitLine p.buffer = some (l.line, rest) := hb ▸ l.splitLine_bytes rest
  rw [move, hp]
  simp [moveTrailers, hsplit, l.line_ne_nil, hl, addField_line hl]

theorem move_trailersEnd (hp : p.phase = .trailers fields used)
    (hb : p.buffer = Bytes.crlf ++ rest) : p.move = .next (.complete (some fields)) rest := by
  have hsplit := Bytes.splitLine_empty rest
  rw [← hb] at hsplit
  rw [move, hp]
  simp [moveTrailers, hsplit]

theorem move_headEnd {framing : Framing} (hl : p.limits = .unlimited)
    (hp : p.phase = .fieldLines start fields used) (hb : p.buffer = Bytes.crlf ++ rest)
    (hfinal : isInterim start.status = false)
    (hf : Framing.resolve fields (p.noBody start.status) = .ok framing) :
    p.move = .event (.head ⟨start, fields⟩ (framing = .empty ∨ framing = .length 0))
      (bodyPhase framing) rest := by
  have hsplit := Bytes.splitLine_empty rest
  rw [← hb] at hsplit
  rw [move, hp]
  simp [moveFieldLines, hsplit, hl, endHead, hfinal, hf]

theorem finishes_lines {reading : Fields → Nat → Phase} (lines : List FieldLine)
    (hmove : ∀ {q : Parser} {fields : Fields} {used : Nat} {l : FieldLine} {rest : Bytes},
      q.limits = .unlimited → q.phase = reading fields used → q.buffer = l.bytes ++ rest →
      q.move = .next (reading (fields.push l.field) (used + l.line.length + 2)) rest)
    (hl : p.limits = .unlimited) (hp : p.phase = reading fields used)
    (hb : p.buffer = lines.flatMap FieldLine.bytes ++ rest)
    (h : ∀ used, Finishes { p with
      phase := reading ⟨fields.entries ++ lines.map (·.field)⟩ used, buffer := rest } es left) :
    Finishes p es left := by
  induction lines generalizing p fields used with
  | nil =>
    have hrest : p.buffer = rest := hb
    have hall := h used
    rw [List.map_nil, List.append_nil, ← hp, ← hrest] at hall
    exact hall
  | cons l lines ih =>
    rw [List.flatMap_cons, List.append_assoc] at hb
    refine .next (hmove hl hp hb) (ih hl rfl rfl fun used => ?_)
    simpa [Fields.push] using h used

theorem finishes_trailers {lines : List FieldLine} (hl : p.limits = .unlimited)
    (hp : p.phase = .trailers .empty used)
    (hb : p.buffer = lines.flatMap FieldLine.bytes ++ (Bytes.crlf ++ left)) :
    Finishes p [.complete ⟨lines.map (·.field)⟩] left := by
  refine finishes_lines lines move_trailerLine hl hp hb fun used => ?_
  exact .next (move_trailersEnd rfl rfl) (finishes_complete rfl)

theorem takeBody_whole {data : Bytes} (hne : data ≠ []) (hb : p.buffer = data ++ rest)
    (later : Nat → Phase) (wait : Phase) :
    p.takeBody data.length later wait = .event (.chunk data) (later 0) rest := by
  rw [takeBody_eq (List.length_pos_iff.2 hne) (by simp [hb, hne]), hb]
  simp

theorem move_sizeLine {line : Bytes} {n : Nat} (hl : p.limits = .unlimited)
    (hp : p.phase = .chunkSize) (hs : Bytes.splitLine p.buffer = some (line, rest))
    (hr : Chunk.readSize line = .ok n) : p.move = .next (afterChunkSize n) rest := by
  rw [move, hp]
  simp [moveChunkLine, hs, hl, Limits.unlimited, Limits.exceeded, hr]

theorem move_chunkEnd (hp : p.phase = .chunkEnd) (hb : p.buffer = Bytes.crlf ++ rest) :
    p.move = .next .chunkSize rest := by
  rw [move, hp]
  simp [moveChunkEnd, hb, Bytes.crlf]

theorem afterChunkSize_pos {n : Nat} (h : 0 < n) : afterChunkSize n = .chunkData n := by
  cases n with
  | zero => cases h
  | succ n => rfl

theorem finishes_chunk {chunk : Bytes} (hl : p.limits = .unlimited) (hp : p.phase = .chunkSize)
    (hne : chunk ≠ []) (hfits : chunk.length ≤ Numeral.wordLimit)
    (hb : p.buffer = Chunk.encode chunk ++ rest)
    (h : ∀ q : Parser, q.limits = .unlimited → q.phase = .chunkSize → q.buffer = rest →
      Finishes q es left) : Finishes p (.chunk chunk :: es) left := by
  have hcr : ∀ c ∈ Numeral.print 16 chunk.length, c ≠ '\r' :=
    Numeral.print_chars (by decide) (by decide) (by decide)
  have hline : Bytes.splitLine (Bytes.ofChars (Numeral.print 16 chunk.length)) = none :=
    Bytes.splitLine_of_not_mem (Bytes.cr_not_mem_ofChars fun hm => hcr _ hm rfl)
  have hsplit := Bytes.splitLine_crlf hline (chunk ++ (Bytes.crlf ++ rest))
  have hencode : Bytes.ofChars (Numeral.print 16 chunk.length) ++ Bytes.crlf ++
      (chunk ++ (Bytes.crlf ++ rest)) = p.buffer := by
    simp [hb, Chunk.encode, hne]
  rw [hencode] at hsplit
  have hsize := move_sizeLine hl hp hsplit (Chunk.readSize_print hfits)
  rw [afterChunkSize_pos (List.length_pos_iff.2 hne)] at hsize
  refine .next hsize (.event (takeBody_whole hne rfl _ _) ?_)
  exact .next (move_chunkEnd rfl rfl) (h _ hl rfl rfl)

theorem finishes_chunks {chunks : List Bytes} {last : LastLine} {lines : List FieldLine}
    (hne : ∀ chunk ∈ chunks, chunk ≠ []) (hfits : chunks.flatten.length ≤ Numeral.wordLimit)
    (hl : p.limits = .unlimited) (hp : p.phase = .chunkSize)
    (hb : p.buffer = chunks.flatMap Chunk.encode ++
      (last.bytes ++ (lines.flatMap FieldLine.bytes ++ (Bytes.crlf ++ left)))) :
    Finishes p (chunks.map .chunk ++ [.complete ⟨lines.map (·.field)⟩]) left := by
  induction chunks generalizing p with
  | nil =>
    have hsplit := last.splitLine_bytes (lines.flatMap FieldLine.bytes ++ (Bytes.crlf ++ left))
    rw [List.flatMap_nil, List.nil_append] at hb
    rw [← hb] at hsplit
    exact .next (move_sizeLine hl hp hsplit last.readSize_line) (finishes_trailers hl rfl rfl)
  | cons chunk chunks ih =>
    rw [List.flatMap_cons, List.append_assoc] at hb
    rw [List.flatten_cons, List.length_append] at hfits
    refine finishes_chunk hl hp (hne chunk List.mem_cons_self) (by omega) hb fun q hl hp hb => ?_
    exact ih (fun c hc => hne c (List.mem_cons_of_mem chunk hc)) (by omega) hl hp hb

theorem finishes_body {b : WrittenBody} (hfits : b.payload.length ≤ Numeral.wordLimit)
    (hl : p.limits = .unlimited) (hp : p.phase = bodyPhase b.framing)
    (hb : p.buffer = b.bytes ++ left) :
    Finishes p (b.pieces.map .chunk ++ [.complete b.trailers]) left := by
  cases b with
  | counted data =>
    cases data with
    | nil =>
      have hleft : p.buffer = left := hb
      rw [← hleft]
      exact finishes_complete hp
    | cons c data =>
      have hne : c :: data ≠ [] := List.cons_ne_nil c data
      have hm : p.move = .event (.chunk (c :: data)) (.complete (some .empty)) left := by
        rw [move, hp]
        exact takeBody_whole hne hb _ _
      exact .event hm (finishes_complete rfl)
  | chunked chunks nonempty last lines =>
    have hbuffer : p.buffer = chunks.flatMap Chunk.encode ++
        (last.bytes ++ (lines.flatMap FieldLine.bytes ++ (Bytes.crlf ++ left))) := by
      rw [hb, WrittenBody.bytes, List.append_assoc, List.append_assoc, List.append_assoc]
    exact finishes_chunks nonempty hfits hl hp hbuffer

theorem move_statusLine {line : Bytes} (hl : p.limits = .unlimited) (hp : p.phase = .statusLine)
    (hs : Bytes.splitLine p.buffer = some (line, rest)) (hr : StatusLine.read line = .ok start) :
    p.move = .next (.fieldLines start .empty (line.length + 2)) rest := by
  rw [move, hp]
  simp [moveStatusLine, hs, hl, hr]

theorem finishes_headEnd (m : WrittenResponse) (hl : p.limits = .unlimited)
    (hp : p.phase = .fieldLines m.start m.head.fields used)
    (hbody : p.noBody m.start.status = false)
    (hb : p.buffer = Bytes.crlf ++ (m.body.bytes ++ left)) :
    Finishes p (.head m.head (m.body.framing = .length 0) ::
      (m.body.pieces.map .chunk ++ [.complete m.body.trailers])) left := by
  obtain ⟨hlow, hhigh⟩ := m.final
  have hfinal : isInterim m.start.status = false := by
    simp [isInterim]
    omega
  have hresolve : Framing.resolve m.head.fields (p.noBody m.start.status) =
      .ok m.body.framing := by
    rw [hbody]
    exact m.resolve_head
  have hmove := move_headEnd hl hp hb hfinal hresolve
  have hempty : ¬m.body.framing = .empty := by cases m.body <;> simp [WrittenBody.framing]
  simp only [hempty, false_or] at hmove
  exact .event hmove (finishes_body m.fits hl rfl rfl)

theorem finishes_response (m : WrittenResponse) (hl : p.limits = .unlimited)
    (hp : p.phase = .statusLine) (hbody : p.noBody m.start.status = false)
    (hb : p.buffer = m.bytes ++ left) :
    Finishes p (.head m.head (m.body.framing = .length 0) ::
      (m.body.pieces.map .chunk ++ [.complete m.body.trailers])) left := by
  obtain ⟨hlow, hhigh⟩ := m.final
  obtain ⟨lines, hfields, hwritten⟩ := FieldLine.exists_plain m.head_plain
  have hbuffer : p.buffer = m.start.line ++ Bytes.crlf ++
      (lines.flatMap FieldLine.bytes ++ (Bytes.crlf ++ (m.body.bytes ++ left))) := by
    simp only [hb, hwritten, WrittenResponse.bytes, List.append_assoc]
  have hsplit := StatusLine.splitLine_line m.reason
    (lines.flatMap FieldLine.bytes ++ (Bytes.crlf ++ (m.body.bytes ++ left)))
  rw [← hbuffer] at hsplit
  have hstatus := move_statusLine hl hp hsplit (StatusLine.read_line (by omega) hhigh m.reason)
  refine .next hstatus (finishes_lines lines move_fieldLine hl rfl rfl fun used => ?_)
  have hhead : Fields.empty.entries ++ lines.map (·.field) = m.head.fields.entries := hfields
  rw [hhead]
  exact finishes_headEnd m hl rfl hbody rfl

end Finishes

end Parser

namespace WrittenResponse

theorem noBody_get (m : WrittenResponse) :
    (Parser.forMethod "GET" .unlimited).noBody m.start.status = false := by
  have hhead : Text.sameWord "GET" "HEAD" = false := by decide
  have hconnect : Text.sameWord "GET" "CONNECT" = false := by decide
  obtain ⟨hlow, hhigh⟩ := m.final
  have hinterim : ¬m.start.status < 200 := by omega
  simp [Parser.noBody, Parser.forMethod, hhead, hconnect, Parser.statusHasBody, m.has_body,
    hinterim]

/-- A response is read back as what was written, up to its last octet and no further. -/
theorem read_back (m : WrittenResponse) (rest : Bytes) :
    ∃ q, (Parser.forMethod "GET" .unlimited).drain (m.bytes ++ rest) =
        (.head m.head (m.body.framing = .length 0) ::
          (m.body.pieces.map .chunk ++ [.complete m.body.trailers]), none, q) ∧
      m.body.pieces.flatten = m.body.payload ∧ q.state = .complete ∧ q.buffer = rest := by
  have hfinishes : Parser.Finishes
      ((Parser.forMethod "GET" .unlimited).append (m.bytes ++ rest)) _ rest :=
    Parser.finishes_response m rfl rfl m.noBody_get rfl
  obtain ⟨q, hq, hphase, hleft⟩ := hfinishes
  have hsettled := Parser.settled_forMethod "GET" .unlimited
  refine ⟨q, (hsettled.drain_eq _).trans hq, m.body.flatten_pieces, ?_, hleft⟩
  rw [Parser.state, hphase]
  rfl

/-- Line endings in a chunk, an extension of the last size line and a padded trailer. -/
def sample : WrittenResponse where
  start := ⟨.http11, 203, "Überall gut"⟩
  fields := ⟨[⟨"Server", "s"⟩]⟩
  body := .chunked [Bytes.ofText "ab", Bytes.ofText "\r\n0"] (by decide)
    ⟨[], 2, [32], [59, 120], by simp [Bytes.isBlank], by decide, by decide, by simp, by decide⟩
    [⟨⟨"Check", "1"⟩, [], ['\t'], by decide, by decide, by simp [isPadding]⟩]
  final := by decide
  has_body := by decide
  reason := by decide
  accepted := by decide
  uncoded := by decide
  unstated := by decide
  fits := by decide

theorem read_back_sample : ∃ text q,
    sample.bytes ++ Bytes.ofText "HTTP/1.1" = Bytes.ofText text ∧
    (Parser.forMethod "GET" .unlimited).drain (Bytes.ofText text) =
      ([.head ⟨⟨.http11, 203, "Überall gut"⟩,
          ⟨[⟨"Server", "s"⟩, ⟨"Transfer-Encoding", "chunked"⟩]⟩⟩ false,
        .chunk (Bytes.ofText "ab"), .chunk (Bytes.ofText "\r\n0"),
        .complete ⟨[⟨"Check", "1"⟩]⟩], none, q) ∧
    q.state = .complete ∧ q.buffer = Bytes.ofText "HTTP/1.1" := by
  have htext : sample.bytes ++ Bytes.ofText "HTTP/1.1" = Bytes.ofText
      ("HTTP/1.1 203 Überall gut\r\nServer: s\r\nTransfer-Encoding: chunked\r\n\r\n" ++
        "2\r\nab\r\n3\r\n\r\n0\r\n00 ;x\r\nCheck:1\t\r\n\r\nHTTP/1.1") := by
    decide +kernel
  obtain ⟨q, hq, -, hend⟩ := read_back sample (Bytes.ofText "HTTP/1.1")
  rw [htext] at hq
  exact ⟨_, q, htext, hq, hend⟩

end WrittenResponse
end HttpClient
