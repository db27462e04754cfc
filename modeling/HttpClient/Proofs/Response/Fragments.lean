import HttpClient.Proofs.Response.Runs
set_option autoImplicit false

/-! Reading does not hang on how the octets were cut into fragments. -/

namespace HttpClient

def Phase.followsEvent : Phase → Bool
  | .counted _ | .untilClose | .chunkSize | .chunkData _ | .chunkEnd | .complete _ => true
  | _ => false

namespace Parser

theorem drainAll_cons (p : Parser) (data : Bytes) (more : List Bytes) :
    p.drainAll (data :: more) = Run.andThen (p.drain data) fun q => q.drainAll more := by
  rw [drainAll]
  obtain ⟨es, error, q⟩ := p.drain data
  cases error <;> rfl

theorem settled_of_drain {p q : Parser} (hp : p.Settled) {a : Bytes} {es : List Event}
    (h : p.drain a = (es, none, q)) : q.Settled := by
  rw [hp.drain_eq] at h
  exact settled_of_events h

/-- Draining twice is draining once, unless the first time a bound is exceeded. -/
theorem drain_append {p : Parser} (hp : p.Settled) {a : Bytes}
    (h : Run.overBound (p.drain a) = false) (c : Bytes) :
    Run.Same (p.drain (a ++ c)) (Run.andThen (p.drain a) fun q => q.drain c) := by
  rw [hp.drain_eq] at h ⊢
  rw [hp.drain_eq, ← append_append]
  refine (events_append h c).trans ?_
  rcases he : (p.append a).events with ⟨es, error | error, q⟩
  · have hq := settled_of_events he
    simp only [Run.andThen, hq.drain_eq]
    exact .refl _
  · exact .refl _

theorem drainAll_same {p : Parser} (hp : p.Settled) (fs : List Bytes)
    (h : Run.overBound (p.drainAll fs) = false) :
    Run.Same (p.drainAll fs) (p.drain fs.flatten) := by
  induction fs generalizing p with
  | nil =>
    rw [hp.drain_eq, List.flatten_nil, append_nil, hp.events_eq]
    exact .refl _
  | cons data fs ih =>
    rw [drainAll_cons] at h ⊢
    rw [List.flatten_cons]
    have hfirst : Run.overBound (p.drain data) = false := by
      rcases he : p.drain data with ⟨es, error | error, q⟩ <;>
        simp_all [Run.andThen, Run.overBound]
    refine Run.Same.trans ?_ (drain_append hp hfirst fs.flatten).symm
    rcases he : p.drain data with ⟨es, error | error, q⟩
    · rw [he] at h
      have hq : q.Settled := settled_of_drain hp he
      exact Run.Same.after es (ih hq h)
    · exact .refl _

theorem drainAll_same_of_flatten {p : Parser} (hp : p.Settled) {fs gs : List Bytes}
    (h : fs.flatten = gs.flatten) (hf : Run.overBound (p.drainAll fs) = false)
    (hg : Run.overBound (p.drainAll gs) = false) : Run.Same (p.drainAll fs) (p.drainAll gs) := by
  have := drainAll_same hp fs hf
  rw [h] at this
  exact this.trans (drainAll_same hp gs hg).symm

theorem bodyPhase_followsEvent (framing : Framing) : (bodyPhase framing).followsEvent = true := by
  unfold bodyPhase
  split <;> rfl

theorem takeBody_followsEvent {p : Parser} {left : Nat} {later : Nat → Phase} {wait phase : Phase}
    {e : Event} {rest : Bytes} (hl : ∀ n, (later n).followsEvent = true)
    (h : p.takeBody left later wait = .event e phase rest) : phase.followsEvent = true := by
  unfold takeBody at h
  split at h <;> cases h
  exact hl _

theorem followsEvent_of_event {p : Parser} {e : Event} {phase : Phase} {rest : Bytes}
    (h : p.move = .event e phase rest) : phase.followsEvent = true := by
  cases hq : p.phase with
  | counted left =>
    rw [move_counted p left hq] at h
    exact takeBody_followsEvent (fun n => by cases n <;> rfl) h
  | chunkData left =>
    rw [move_chunkData p left hq] at h
    exact takeBody_followsEvent (fun n => by cases n <;> rfl) h
  | untilClose =>
    rw [move_untilClose p hq] at h
    exact takeBody_followsEvent (fun n => rfl) h
  | fieldLines start fields used =>
    simp only [move, hq, moveFieldLines, endHead, headTooLarge] at h
    repeat' split at h
    all_goals cases h
    exact bodyPhase_followsEvent _
  | complete trailers =>
    cases trailers <;> simp only [move, hq] at h <;> cases h
    rfl
  | _ =>
    simp only [move, hq, moveStatusLine, moveChunkLine, moveChunkEnd, moveTrailers,
      headTooLarge] at h
    repeat' split at h
    all_goals cases h

@[simp] theorem record_phase (p : Parser) (e : Event) (phase : Phase) (rest : Bytes) :
    (p.record e phase rest).phase = phase := by
  cases e <;> rfl

theorem ne_failed_of_advance {p q : Parser} {e : Event} (h : p.advance = (.ok (some e), q)) :
    q.phase ≠ .failed := by
  fun_induction advance p with
  | case1 => simp at h
  | case2 p phase rest hm ih => exact ih h
  | case3 p e phase rest hm =>
    cases h
    have := followsEvent_of_event hm
    rintro hf
    simp [show phase = .failed by simpa using hf, Phase.followsEvent] at this
  | case4 => simp at h

theorem drain_eq_feed {p : Parser} (hp : p.phase ≠ .failed) (data : Bytes) :
    p.drain data = match p.feed data with
      | (.ok (some e), q) => Run.after [e] (q.drain [])
      | (.ok none, q) => ([], none, q)
      | (.error error, q) => ([], some error, q) := by
  rw [drain, feed, if_neg hp, if_neg hp]
  rcases ha : Parser.advance { p with buffer := p.buffer ++ data } with ⟨⟨⟩ | ⟨⟨⟩ | e⟩, q⟩
  · exact events_of_advance_error ha
  · exact events_of_advance_none ha
  · simp only [drain, if_neg (ne_failed_of_advance ha), List.append_nil]
    exact events_of_advance_some ha

/-- What is known of a run: the heads, the octets of the body and the trailers of the messages that
ended, the error, and what the parser tells of itself. -/
structure Reading where
  heads : List (ResponseHead × Bool)
  body : Bytes
  trailers : List Fields
  error : Option ParseError
  state : ParserState
  bodyBytes : Nat
  overLimit : Bool
  remaining : Bytes
  deriving DecidableEq, Repr

end Parser

namespace Event

def heads : Event → List (ResponseHead × Bool)
  | .head start bodiless => [(start, bodiless)]
  | _ => []

def octets : Event → Bytes
  | .chunk data => data
  | _ => []

def trailers : Event → List Fields
  | .complete fields => [fields]
  | _ => []

theorem flatMap_merge {α : Type} {f : Event → List α}
    (hf : ∀ data more, f (.chunk (data ++ more)) = f (.chunk data) ++ f (.chunk more))
    (es : List Event) : (merge es).flatMap f = es.flatMap f := by
  induction es with
  | nil => rfl
  | cons e es ih =>
    cases e with
    | chunk data =>
      rw [merge, List.flatMap_cons, ← ih]
      split <;> simp [*]
    | _ => simp [merge, ih]

end Event

namespace Parser.Run

def reading (r : Run) : Reading where
  heads := r.1.flatMap Event.heads
  body := r.1.flatMap Event.octets
  trailers := r.1.flatMap Event.trailers
  error := r.2.1
  state := r.2.2.state
  bodyBytes := r.2.2.bodyBytes
  overLimit := r.2.2.overLimit
  remaining := r.2.2.buffer

/-- Tells the parser that the connection has ended, and takes what that makes known. -/
def ended (r : Run) : Run :=
  let last := r.2.2.finish.drain []
  (r.1 ++ last.1, r.2.1.or last.2.1, last.2.2)

variable {r s : Run}

theorem Same.flatMap_eq {α : Type} (h : r.Same s) {f : Event → List α}
    (hf : ∀ data more, f (.chunk (data ++ more)) = f (.chunk data) ++ f (.chunk more)) :
    r.1.flatMap f = s.1.flatMap f := by
  rw [← Event.flatMap_merge hf, h.1, Event.flatMap_merge hf]

theorem Same.heads (h : r.Same s) : r.1.flatMap Event.heads = s.1.flatMap Event.heads :=
  h.flatMap_eq fun _ _ => rfl

theorem Same.octets (h : r.Same s) : r.1.flatMap Event.octets = s.1.flatMap Event.octets :=
  h.flatMap_eq fun _ _ => rfl

theorem Same.trailers (h : r.Same s) : r.1.flatMap Event.trailers = s.1.flatMap Event.trailers :=
  h.flatMap_eq fun _ _ => rfl

theorem Same.reading (h : r.Same s) : r.reading = s.reading := by
  simp only [Run.reading, h.heads, h.octets, h.trailers, h.2]

theorem Same.reading_ended (h : r.Same s) : r.ended.reading = s.ended.reading := by
  simp only [Run.reading, Run.ended, List.flatMap_append, h.heads, h.octets, h.trailers, h.2]

end Parser.Run

namespace Parser

/-- However the octets of responses are cut into fragments, the same is read, also when the end of
the connection comes after them; unless one way of cutting exceeds a bound. -/
theorem reading_of_fragments (limits : Limits) (method : String) {fs gs : List Bytes}
    (h : fs.flatten = gs.flatten)
    (hf : Run.overBound ((forMethod method limits).drainAll fs) = false)
    (hg : Run.overBound ((forMethod method limits).drainAll gs) = false) :
    Run.reading ((forMethod method limits).drainAll fs) =
        Run.reading ((forMethod method limits).drainAll gs) ∧
      Run.reading (Run.ended ((forMethod method limits).drainAll fs)) =
        Run.reading (Run.ended ((forMethod method limits).drainAll gs)) := by
  have hs := drainAll_same_of_flatten (settled_forMethod method limits) h hf hg
  exact ⟨hs.reading, hs.reading_ended⟩

/-- A chunked response, cut inside a chunk, two line endings and the line of the last chunk. -/
def chunkedFragments : List Bytes :=
  [Bytes.ofText "HTTP/1.1 200 OK\r\nTransfer-Encoding: chunked\r\n\r\n2\r\nh",
    Bytes.ofText "i\r", Bytes.ofText "\n0\r", Bytes.ofText "\n\r\n"]

theorem reading_of_chunkedFragments :
    Run.reading ((forMethod "GET" .standard).drainAll chunkedFragments) =
        Run.reading ((forMethod "GET" .standard).drainAll [chunkedFragments.flatten]) ∧
      Run.reading (Run.ended ((forMethod "GET" .standard).drainAll chunkedFragments)) =
        Run.reading (Run.ended ((forMethod "GET" .standard).drainAll [chunkedFragments.flatten])) :=
  reading_of_fragments .standard "GET" (by decide +kernel) (by decide +kernel) (by decide +kernel)

end Parser
end HttpClient
