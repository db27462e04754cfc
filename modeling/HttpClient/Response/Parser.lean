import HttpClient.Framing
import HttpClient.Limits
import HttpClient.Response.Head
set_option autoImplicit false

/-!
The incremental reader of responses. Octets come in fragments of any size; a `move` looks at the
buffer and either consumes something, reports an event, fails, or waits. Feeding repeats moves
until there is something to report, so what is reported does not hang on the fragments.
-/

namespace HttpClient

inductive Phase where
  | statusLine
  | fieldLines (start : StatusLine) (fields : Fields) (used : Nat)
  | counted (left : Nat)
  | untilClose
  | chunkSize
  | chunkData (left : Nat)
  | chunkEnd
  /-- The line of the last chunk is incomplete but already known to be the last. -/
  | lastChunk
  | trailers (fields : Fields) (used : Nat)
  | complete (trailers : Option Fields)
  | failed
  deriving DecidableEq, Repr

inductive ParserState where
  | awaitingHeaders
  | bodyIdentity
  | bodyUntilClose
  | bodyChunked
  | chunkedTrailer
  | complete
  | failed
  deriving DecidableEq, Repr

namespace ParserState

def ordinal : ParserState → Nat
  | .awaitingHeaders => 0
  | .bodyIdentity => 1
  | .bodyUntilClose => 2
  | .bodyChunked => 3
  | .chunkedTrailer => 4
  | .complete => 5
  | .failed => 6

def all : List ParserState :=
  [.awaitingHeaders, .bodyIdentity, .bodyUntilClose, .bodyChunked, .chunkedTrailer, .complete,
    .failed]

def name : ParserState → String
  | .awaitingHeaders => "awaiting-headers"
  | .bodyIdentity => "awaiting-body-identity"
  | .bodyUntilClose => "awaiting-body-identity-eof"
  | .bodyChunked => "awaiting-body-chunked"
  | .chunkedTrailer => "chunked-trailer"
  | .complete => "complete"
  | .failed => "error"

def message (s : ParserState) : String := s!"{s.name} ({s.ordinal})"

end ParserState

def Phase.state : Phase → ParserState
  | .statusLine | .fieldLines .. => .awaitingHeaders
  | .counted _ => .bodyIdentity
  | .untilClose => .bodyUntilClose
  | .chunkSize | .chunkData _ | .chunkEnd => .bodyChunked
  | .lastChunk | .trailers .. => .chunkedTrailer
  | .complete _ => .complete
  | .failed => .failed

inductive Event where
  | head (head : ResponseHead) (bodiless : Bool)
  | chunk (data : Bytes)
  | complete (trailers : Fields)
  deriving DecidableEq, Repr

/-- What the buffer allows next. -/
inductive Move where
  | wait (phase : Phase)
  | next (phase : Phase) (rest : Bytes)
  | event (event : Event) (phase : Phase) (rest : Bytes)
  | fail (error : ParseError)
  deriving DecidableEq, Repr

structure Parser where
  limits : Limits
  bodiless : Bool
  connect : Bool
  buffer : Bytes
  phase : Phase
  bodyBytes : Nat
  overLimit : Bool
  deriving DecidableEq, Repr

namespace Parser

def new (limits : Limits) : Parser := ⟨limits, false, false, [], .statusLine, 0, false⟩

def forMethod (method : String) (limits : Limits) : Parser :=
  { new limits with
    bodiless := Text.sameWord method "HEAD", connect := Text.sameWord method "CONNECT" }

def state (p : Parser) : ParserState := p.phase.state

/-- Interim and 204 and 304 responses never have a body. -/
def statusHasBody (status : Nat) : Bool :=
  !((100 ≤ status && status < 200) || status == 204 || status == 304)

def isInterim (status : Nat) : Bool := 100 ≤ status && status < 200 && status != 101

def noBody (p : Parser) (status : Nat) : Bool :=
  p.bodiless || !statusHasBody status || (p.connect && 200 ≤ status && status < 300)

def bodyPhase : Framing → Phase
  | .empty | .length 0 => .complete (some .empty)
  | .length n => .counted n
  | .chunked => .chunkSize
  | .untilClose => .untilClose

def headTooLarge (p : Parser) (size : Nat) : Move := .fail (.headTooLarge size p.limits.headBytes)

/-- The empty line ends an interim head, which is passed over, or the final one. -/
def endHead (p : Parser) (start : StatusLine) (fields : Fields) (rest : Bytes) : Move :=
  if isInterim start.status then .next .statusLine rest
  else match Framing.resolve fields (p.noBody start.status) with
    | .error cause => .fail (.malformed cause)
    | .ok framing =>
      let bodiless := framing = .empty ∨ framing = .length 0
      .event (.head ⟨start, fields⟩ bodiless) (bodyPhase framing) rest

def addField (p : Parser) (fields : Fields) (line : Bytes) : Except ParseError Fields :=
  match Limits.exceeded p.limits.fieldCount (fields.count + 1) with
  | some limit => .error (.tooManyFields (fields.count + 1) limit)
  | none => match Field.read line with
    | .error cause => .error (.malformed cause)
    | .ok field => .ok (fields.push field)

def moveStatusLine (p : Parser) : Move :=
  match Bytes.splitLine p.buffer with
  | none =>
    if p.limits.headTooLarge p.buffer.length then p.headTooLarge p.buffer.length
    else .wait .statusLine
  | some (line, rest) =>
    let used := line.length + 2
    if p.limits.headTooLarge used then p.headTooLarge used
    else match StatusLine.read line with
      | .error cause => .fail (.malformed cause)
      | .ok start => .next (.fieldLines start .empty used) rest

def moveFieldLines (p : Parser) (start : StatusLine) (fields : Fields) (used : Nat) : Move :=
  match Bytes.splitLine p.buffer with
  | none =>
    if p.limits.headTooLarge (used + p.buffer.length) then p.headTooLarge (used + p.buffer.length)
    else .wait (.fieldLines start fields used)
  | some (line, rest) =>
    let used := used + line.length + 2
    if p.limits.headTooLarge used then p.headTooLarge used
    else if line.isEmpty then p.endHead start fields rest
    else match p.addField fields line with
      | .error error => .fail error
      | .ok fields => .next (.fieldLines start fields used) rest

def takeBody (p : Parser) (left : Nat) (later : Nat → Phase) (wait : Phase) : Move :=
  match p.buffer.take left with
  | [] => .wait wait
  | b :: data => .event (.chunk (b :: data)) (later (left - p.buffer.length)) (p.buffer.drop left)

def afterCounted : Nat → Phase
  | 0 => .complete (some .empty)
  | left + 1 => .counted (left + 1)

def afterChunkData : Nat → Phase
  | 0 => .chunkEnd
  | left + 1 => .chunkData (left + 1)

/-- Reads a chunk line, or waits in the phase that `wait` gives for an unfinished one. -/
def moveChunkLine (p : Parser) (wait : Phase) (sized : Nat → Phase) : Move :=
  match Bytes.splitLine p.buffer with
  | none =>
    match Limits.exceeded p.limits.chunkLine p.buffer.length with
    | some limit => .fail (.chunkLineTooLong p.buffer.length limit)
    | none => .wait wait
  | some (line, rest) =>
    match Limits.exceeded p.limits.chunkLine line.length with
    | some limit => .fail (.chunkLineTooLong line.length limit)
    | none => match Chunk.readSize line with
      | .error cause => .fail (.malformed cause)
      | .ok size => .next (sized size) rest

def afterChunkSize : Nat → Phase
  | 0 => .trailers .empty 0
  | size + 1 => .chunkData (size + 1)

def moveChunkEnd (p : Parser) : Move :=
  match p.buffer with
  | [] => .wait .chunkEnd
  | [b] => if b = Bytes.cr then .wait .chunkEnd else .fail (.malformed .chunkEnd)
  | b :: c :: rest =>
    if b = Bytes.cr ∧ c = Bytes.lf then .next .chunkSize rest else .fail (.malformed .chunkEnd)

def moveTrailers (p : Parser) (fields : Fields) (used : Nat) : Move :=
  match Bytes.splitLine p.buffer with
  | none =>
    if p.limits.headTooLarge (used + p.buffer.length) then p.headTooLarge (used + p.buffer.length)
    else .wait (.trailers fields used)
  | some (line, rest) =>
    if line.isEmpty then .next (.complete (some fields)) rest
    else
      let used := used + line.length + 2
      if p.limits.headTooLarge used then p.headTooLarge used
      else match p.addField fields line with
        | .error error => .fail error
        | .ok fields => .next (.trailers fields used) rest

def move (p : Parser) : Move :=
  match p.phase with
  | .statusLine => p.moveStatusLine
  | .fieldLines start fields used => p.moveFieldLines start fields used
  | .counted left => p.takeBody left afterCounted (.counted left)
  | .untilClose => p.takeBody p.buffer.length (fun _ => .untilClose) .untilClose
  | .chunkSize =>
    p.moveChunkLine (if Chunk.isLastSoFar p.buffer then .lastChunk else .chunkSize) afterChunkSize
  | .chunkData left => p.takeBody left afterChunkData (.chunkData left)
  | .chunkEnd => p.moveChunkEnd
  | .lastChunk => p.moveChunkLine .lastChunk fun _ => .trailers .empty 0
  | .trailers fields used => p.moveTrailers fields used
  | .complete none => .wait (.complete none)
  | .complete (some trailers) => .event (.complete trailers) (.complete none) p.buffer
  | .failed => .fail .stopped

/-- The books after an event: the octets of the body handed out, and whether the body is known to
be over its bound, be it by its announced length or by those octets. -/
def record (p : Parser) (event : Event) (phase : Phase) (rest : Bytes) : Parser :=
  match event with
  | .head .. =>
    let tooLong := match phase with
      | .counted left => p.limits.bodyTooLarge left
      | _ => false
    { p with phase := phase, buffer := rest, overLimit := p.overLimit || tooLong }
  | .chunk data =>
    let total := p.bodyBytes + data.length
    { p with
      phase := phase, buffer := rest, bodyBytes := total
      overLimit := p.overLimit || p.limits.bodyTooLarge total }
  | .complete _ => { p with phase := phase, buffer := rest }

theorem length_of_moveChunkLine {p : Parser} {wait phase : Phase} {sized : Nat → Phase}
    {rest : Bytes} (h : p.moveChunkLine wait sized = .next phase rest) :
    rest.length < p.buffer.length := by
  unfold moveChunkLine at h
  split at h
  · split at h <;> simp at h
  · next line after hl =>
    have := Bytes.length_of_splitLine hl
    split at h
    · simp at h
    · split at h
      · simp at h
      · cases h; omega

theorem length_of_move_next {p : Parser} {phase : Phase} {rest : Bytes}
    (h : p.move = .next phase rest) : rest.length < p.buffer.length := by
  unfold move at h
  split at h
  · unfold moveStatusLine at h
    split at h
    · split at h <;> simp [headTooLarge] at h
    · next line after hl =>
      have := Bytes.length_of_splitLine hl
      dsimp only at h
      split at h
      · simp [headTooLarge] at h
      · split at h
        · simp at h
        · cases h; omega
  · unfold moveFieldLines at h
    split at h
    · split at h <;> simp [headTooLarge] at h
    · next line after hl =>
      have := Bytes.length_of_splitLine hl
      dsimp only at h
      split at h
      · simp [headTooLarge] at h
      · split at h
        · unfold endHead at h
          split at h
          · cases h; omega
          · split at h <;> simp at h
        · split at h
          · simp at h
          · cases h; omega
  · unfold takeBody at h; split at h <;> simp at h
  · unfold takeBody at h; split at h <;> simp at h
  · exact length_of_moveChunkLine h
  · unfold takeBody at h; split at h <;> simp at h
  · unfold moveChunkEnd at h
    split at h
    · simp at h
    · split at h <;> simp at h
    · next hb =>
      split at h
      · cases h; simp only [hb, List.length_cons]; omega
      · simp at h
  · exact length_of_moveChunkLine h
  · unfold moveTrailers at h
    split at h
    · split at h <;> simp [headTooLarge] at h
    · next line after hl =>
      have := Bytes.length_of_splitLine hl
      split at h
      · cases h; omega
      · dsimp only at h
        split at h
        · simp [headTooLarge] at h
        · split at h
          · simp at h
          · cases h; omega
  · simp at h
  · simp at h
  · simp at h

/-- Moves until there is an event, a failure, or nothing to go on with. -/
def advance (p : Parser) : Except ParseError (Option Event) × Parser :=
  match _h : p.move with
  | .wait phase => (.ok none, { p with phase := phase })
  | .next phase rest => advance { p with phase := phase, buffer := rest }
  | .event event phase rest => (.ok (some event), p.record event phase rest)
  | .fail error => (.error error, { p with phase := .failed, buffer := [] })
termination_by p.buffer.length
decreasing_by exact length_of_move_next _h

/-- Takes in octets and reports the next event. After a failure there is none any more. -/
def feed (p : Parser) (data : Bytes) : Except ParseError (Option Event) × Parser :=
  if p.phase = .failed then (.error .stopped, p)
  else advance { p with buffer := p.buffer ++ data }

def finish (p : Parser) : Parser :=
  if p.phase = .untilClose ∧ p.buffer.isEmpty then { p with phase := .complete (some .empty) }
  else p

def reset (p : Parser) : Parser :=
  { p with buffer := [], phase := .statusLine, bodyBytes := 0, overLimit := false }

end Parser
end HttpClient
