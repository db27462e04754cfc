import HttpClient.Payload
import HttpClient.Proofs.Response.ChunkedRest
set_option autoImplicit false

/-!
What is written of the chunks of a body. One chunk is always held back, so behind some chunks that
are not too long all but the last of them have been written, and what comes then decides about it.
-/

namespace HttpClient.Payload

theorem failure_write (data : Bytes) (p : Payload) : (p.write data).failure = p.failure := rfl

theorem flatten_write (data : Bytes) (p : Payload) :
    (p.write data).writes.flatten = data ++ p.writes.flatten := rfl

theorem flatten_nonempty (data : Bytes) :
    (if data.isEmpty then [] else [data] : List Bytes).flatten = data := by
  split
  · next h => rw [List.isEmpty_iff.1 h]; rfl
  · exact List.flatten_singleton

/-- So many octets are no more than what may still follow. -/
def Allows (left : Option Nat) (octets : Nat) : Prop := ∀ n, left = some n → octets ≤ n

section Chunks

variable {framing : PayloadFraming} {failure : Option IoFailure} {held : Option Bytes}
  {left : Option Nat} {chunk : Bytes} {front back chunks : List Bytes}

theorem Allows.any_eq_false {octets : Nat} (h : Allows left octets) :
    left.any (· < octets) = false := by
  cases left with
  | none => rfl
  | some n => simpa using h n rfl

theorem ofChunks_cons (h : Allows left chunk.length) :
    ofChunks framing failure held left (chunk :: back) =
      ⟨held.toList.map (frame framing) ++
          (ofChunks framing failure (some chunk) (left.map (· - chunk.length)) back).writes,
        (ofChunks framing failure (some chunk) (left.map (· - chunk.length)) back).failure⟩ := by
  rw [ofChunks, h.any_eq_false]
  cases held <;> rfl

theorem ofChunks_append (h : Allows left front.flatten.length) :
    ofChunks framing failure held left (front ++ back) =
      ⟨(held.toList ++ front).dropLast.map (frame framing) ++
          (ofChunks framing failure (held.toList ++ front).getLast?
            (left.map (· - front.flatten.length)) back).writes,
        (ofChunks framing failure (held.toList ++ front).getLast?
          (left.map (· - front.flatten.length)) back).failure⟩ := by
  induction front generalizing held left with
  | nil =>
    cases held <;> cases left <;> rfl
  | cons chunk front ih =>
    rw [List.flatten_cons, List.length_append] at h
    have hchunk : Allows left chunk.length :=
      fun n hn => Nat.le_trans (Nat.le_add_right ..) (h n hn)
    have hfront : Allows (left.map (· - chunk.length)) front.flatten.length := by
      intro n hn
      obtain ⟨m, hm, rfl⟩ := Option.map_eq_some_iff.1 hn
      have := h m hm
      omega
    have hlast : (held.toList ++ chunk :: front).getLast? = (chunk :: front).getLast? := by
      rw [List.getLast?_append_cons]
    have hinit : (held.toList ++ chunk :: front).dropLast =
        held.toList ++ (chunk :: front).dropLast :=
      List.dropLast_append_of_ne_nil (List.cons_ne_nil chunk front)
    rw [List.cons_append, ofChunks_cons hchunk, ih hfront, hlast, hinit]
    simp [Option.map_map, Function.comp_def, Nat.sub_sub]

theorem flatten_close (framing : PayloadFraming) (held : Option Bytes) (left : Option Nat) :
    (close framing held left none).writes.flatten =
      held.elim [] (frame framing) ++ ending framing :=
  flatten_nonempty _

theorem flatMap_dropLast (f : Bytes → Bytes) (chunks : List Bytes) :
    chunks.dropLast.flatMap f ++ chunks.getLast?.elim [] f = chunks.flatMap f := by
  rcases List.eq_nil_or_concat chunks with rfl | ⟨init, last, rfl⟩
  · rfl
  · simp

theorem ofChunks_whole (h : Allows left chunks.flatten.length) :
    (ofChunks framing none held left chunks).writes.flatten =
        (held.toList ++ chunks).flatMap (frame framing) ++ ending framing ∧
      (ofChunks framing none held left chunks).failure =
        if left.any (chunks.flatten.length < ·) then some (.protocol .bodyTooShort) else none := by
  have hwhole : ofChunks framing none held left (chunks ++ []) = _ := ofChunks_append h
  rw [List.append_nil] at hwhole
  rw [hwhole, ofChunks]
  refine ⟨?_, ?_⟩
  · rw [List.flatten_append, flatten_close, ← List.append_assoc, ← List.flatMap_def,
      flatMap_dropLast]
  · cases left with
    | none => simp [close]
    | some n =>
      simp only [close, Option.map_some, Option.any_some, decide_eq_true_eq, Nat.sub_pos_iff_lt]

theorem ofChunks_broken (h : Allows left chunks.flatten.length) (cause : IoFailure) :
    ofChunks framing (some cause) held left chunks =
      ⟨(held.toList ++ chunks).dropLast.map (frame framing), some (.io cause)⟩ := by
  have hwhole : ofChunks framing (some cause) held left (chunks ++ []) = _ := ofChunks_append h
  simpa [ofChunks, close] using hwhole

theorem ofChunks_long {n : Nat} (h : front.flatten.length ≤ n)
    (exceeds : n < (front ++ [chunk]).flatten.length) :
    ofChunks framing failure held (some n) (front ++ chunk :: back) =
      ⟨(held.toList ++ front).dropLast.map (frame framing), some (.protocol .bodyTooLong)⟩ := by
  have hallows : Allows (some n) front.flatten.length := fun _ hn => Option.some.inj hn ▸ h
  have hlong : n - front.flatten.length < chunk.length := by
    simp only [List.flatten_append, List.flatten_singleton, List.length_append] at exceeds
    omega
  rw [ofChunks_append hallows, ofChunks, Option.map_some, Option.any_some, decide_eq_true hlong,
    if_pos rfl, List.append_nil]

theorem exists_overrun {n : Nat} (h : n < chunks.flatten.length) :
    ∃ front chunk back, chunks = front ++ chunk :: back ∧ front.flatten.length ≤ n ∧
      n < (front ++ [chunk]).flatten.length := by
  induction chunks using List.reverseRecOn with
  | nil => exact absurd h (Nat.not_lt_zero n)
  | append_singleton chunks chunk ih =>
    by_cases hfront : n < chunks.flatten.length
    · obtain ⟨front, first, back, rfl, hle, hlt⟩ := ih hfront
      exact ⟨front, first, back ++ [chunk], by simp, hle, hlt⟩
    · exact ⟨chunks, chunk, [], rfl, Nat.le_of_not_lt hfront, h⟩

end Chunks

/-- What is written of a stream, framing by framing, and how it is read again. -/
structure KeepsFraming (stream : BodyStream) : Prop where
  chunked : stream.failure = none → (ofStream .chunked stream).failure = none ∧
    (ofStream .chunked stream).writes.flatten = stream.chunks.flatMap Chunk.encode ++ Chunk.last
  /-- A reader that has come to the body finds the octets of the stream in it and nothing else. -/
  readBack : stream.failure = none → ChunkedRest.Sized stream.chunks →
    ∀ (p : Parser) (fs : List Bytes), p.phase = .chunkSize → p.buffer = [] → p.limits.Roomy →
      fs.flatten = (ofStream .chunked stream).writes.flatten →
      ∃ es q, p.drainAll fs = (es, none, q) ∧ es.flatMap Event.heads = [] ∧
        es.flatMap Event.octets = stream.chunks.flatten ∧
        es.flatMap Event.trailers = [.empty] ∧ q.phase = .complete none ∧ q.buffer = []
  raw : stream.failure = none → (ofStream .raw stream).failure = none ∧
    (ofStream .raw stream).writes.flatten = stream.chunks.flatten
  counted : ∀ n, stream.failure = none →
    ((ofStream (.counted n) stream).failure = none ↔ stream.chunks.flatten.length = n)
  fits : ∀ n, stream.failure = none → stream.chunks.flatten.length ≤ n →
    (ofStream (.counted n) stream).writes.flatten = stream.chunks.flatten ∧
      (ofStream (.counted n) stream).failure =
        if stream.chunks.flatten.length < n then some (.protocol .bodyTooShort) else none
  /-- Of what is too long some whole chunks are written that are not, whatever follows them. -/
  tooLong : ∀ n, n < stream.chunks.flatten.length → ∃ front chunk back,
    stream.chunks = front ++ chunk :: back ∧ front.flatten.length ≤ n ∧
      n < (front ++ [chunk]).flatten.length ∧
      ofStream (.counted n) stream = ⟨front.dropLast, some (.protocol .bodyTooLong)⟩
  brokenOff : ∀ framing cause, stream.failure = some cause →
    Allows (allowance framing) stream.chunks.flatten.length →
    ofStream framing stream =
      ⟨stream.chunks.dropLast.map (frame framing), some (.io cause)⟩

theorem map_frame_counted (n : Nat) (chunks : List Bytes) :
    chunks.map (frame (.counted n)) = chunks := by
  have hid : frame (.counted n) = id := rfl
  rw [hid, List.map_id]

section Streams

variable {stream : BodyStream} (hs : stream.failure = none)
include hs

theorem ofStream_whole {framing : PayloadFraming}
    (h : Allows (allowance framing) stream.chunks.flatten.length) :
    (ofStream framing stream).writes.flatten =
        stream.chunks.flatMap (frame framing) ++ ending framing ∧
      (ofStream framing stream).failure =
        if (allowance framing).any (stream.chunks.flatten.length < ·) then
          some (.protocol .bodyTooShort) else none := by
  rw [ofStream, hs]
  exact ofChunks_whole h

theorem ofStream_chunked : (ofStream .chunked stream).failure = none ∧
    (ofStream .chunked stream).writes.flatten =
      stream.chunks.flatMap Chunk.encode ++ Chunk.last := by
  have hallows : Allows (allowance .chunked) stream.chunks.flatten.length := fun _ h => (by cases h)
  obtain ⟨hwrites, hfailure⟩ := ofStream_whole hs hallows
  exact ⟨hfailure, hwrites⟩

theorem ofStream_raw : (ofStream .raw stream).failure = none ∧
    (ofStream .raw stream).writes.flatten = stream.chunks.flatten := by
  have hallows : Allows (allowance .raw) stream.chunks.flatten.length := fun _ h => (by cases h)
  obtain ⟨hwrites, hfailure⟩ := ofStream_whole hs hallows
  refine ⟨hfailure, hwrites.trans ?_⟩
  have hid : frame .raw = id := rfl
  rw [hid, List.flatMap_id]
  exact List.append_nil _

theorem ofStream_fits {n : Nat} (h : stream.chunks.flatten.length ≤ n) :
    (ofStream (.counted n) stream).writes.flatten = stream.chunks.flatten ∧
      (ofStream (.counted n) stream).failure =
        if stream.chunks.flatten.length < n then some (.protocol .bodyTooShort) else none := by
  have hallows : Allows (allowance (.counted n)) stream.chunks.flatten.length :=
    fun _ hn => Option.some.inj hn ▸ h
  obtain ⟨hwrites, hfailure⟩ := ofStream_whole hs hallows
  refine ⟨hwrites.trans ?_, hfailure.trans ?_⟩
  · rw [List.flatMap_def, map_frame_counted]
    exact List.append_nil _
  · simp [allowance]

end Streams

theorem ofStream_long {stream : BodyStream} {n : Nat} (h : n < stream.chunks.flatten.length) :
    ∃ front chunk back, stream.chunks = front ++ chunk :: back ∧ front.flatten.length ≤ n ∧
      n < (front ++ [chunk]).flatten.length ∧
      ofStream (.counted n) stream = ⟨front.dropLast, some (.protocol .bodyTooLong)⟩ := by
  obtain ⟨front, chunk, back, hall, hle, hlt⟩ := exists_overrun h
  refine ⟨front, chunk, back, hall, hle, hlt, ?_⟩
  rw [ofStream, hall, allowance, ofChunks_long hle hlt]
  simp [map_frame_counted]

/-- What is written is what the framing promises. -/
theorem keeps_framing (stream : BodyStream) : KeepsFraming stream where
  chunked hs := ofStream_chunked hs
  readBack hs sized p fs hp hbuffer roomy hfs :=
    p.drainAll_encoded hp hbuffer roomy sized (hfs.trans (ofStream_chunked hs).2)
  raw hs := ofStream_raw hs
  counted n hs := by
    by_cases h : stream.chunks.flatten.length ≤ n
    · rw [(ofStream_fits hs h).2, ite_eq_right_iff]
      constructor
      · intro hfails
        exact Nat.le_antisymm h (Nat.le_of_not_lt fun hlt => (by cases hfails hlt))
      · intro he hlt
        exact absurd he (Nat.ne_of_lt hlt)
    · obtain ⟨front, chunk, back, -, -, -, hfails⟩ := ofStream_long (Nat.lt_of_not_le h)
      rw [hfails]
      exact iff_of_false (by simp) fun he => h (Nat.le_of_eq he)
  fits n hs h := ofStream_fits hs h
  tooLong n h := ofStream_long h
  brokenOff framing cause hs h := by
    rw [ofStream, hs]
    exact ofChunks_broken h cause

/-- Two chunks, behind which the stream ends or breaks off. -/
def greeting (failure : Option IoFailure) : BodyStream :=
  ⟨[Bytes.ofText "hel", Bytes.ofText "lo"], failure⟩

def awaiting : Parser :=
  ((Parser.forMethod "GET" .standard).drain
    (Bytes.ofText "HTTP/1.1 200 OK\r\nTransfer-Encoding: chunked\r\n\r\n")).2.2

theorem keeps_framing_greeting :
    (∃ es q, awaiting.drainAll ((ofStream .chunked (greeting none)).writes.flatten.map ([·])) =
        (es, none, q) ∧ es.flatMap Event.octets = Bytes.ofText "hello" ∧
      es.flatMap Event.trailers = [.empty] ∧ q.buffer = []) ∧
    (ofStream (.counted 5) (greeting none)).failure = none ∧
    ofStream (.counted 9) (greeting (some FileRef.missing)) =
      ⟨[Bytes.ofText "hel"], some (.io FileRef.missing)⟩ := by
  have hroomy : awaiting.limits.Roomy := by
    have hlimits : awaiting.limits = .standard := by decide +kernel
    rw [hlimits]
    exact Limits.roomy_presets.1
  refine ⟨?_, ((keeps_framing (greeting none)).counted 5 rfl).2 (by decide +kernel), ?_⟩
  · obtain ⟨es, q, hrun, -, hoctets, htrailers, -, hbuffer⟩ :=
      (keeps_framing (greeting none)).readBack rfl (by decide +kernel) awaiting
        ((ofStream .chunked (greeting none)).writes.flatten.map ([·])) (by decide +kernel)
        (by decide +kernel) hroomy (by decide +kernel)
    exact ⟨es, q, hrun, hoctets.trans (by decide +kernel), htrailers, hbuffer⟩
  · exact (keeps_framing (greeting (some FileRef.missing))).brokenOff (.counted 9) _ rfl
      fun n hn => (by cases hn; decide +kernel)

end HttpClient.Payload
