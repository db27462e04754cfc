import HttpClient.Proofs.Request.Framing
import HttpClient.Proofs.Request.Payloads
set_option autoImplicit false

/-!
How a body is framed when the caller says nothing about it. The length that is announced is that of
the octets that are sent, the fields name the framing in which they are written, and a reader of the
request finds the end of the body where it is.
-/

namespace HttpClient

section Cut

variable {n : Nat}

theorem Bytes.flatten_cut (hn : n ≠ 0) (bs : Bytes) : (Bytes.cut n bs).flatten = bs := by
  induction bs using Bytes.cut.induct n with
  | case1 bs h =>
    rw [Bytes.cut, dif_pos h]
    exact (h.resolve_right hn).symm
  | case2 bs h ih =>
    rw [Bytes.cut, dif_neg h, List.flatten_cons, ih, List.take_append_drop]

theorem Bytes.ne_nil_of_mem_cut {piece bs : Bytes} (h : piece ∈ Bytes.cut n bs) : piece ≠ [] := by
  induction bs using Bytes.cut.induct n with
  | case1 bs hstop =>
    rw [Bytes.cut, dif_pos hstop] at h
    cases h
  | case2 bs hgoes ih =>
    rw [not_or] at hgoes
    rw [Bytes.cut, dif_neg (not_or.2 hgoes), List.mem_cons] at h
    rcases h with rfl | h
    · simp [hgoes.1, hgoes.2]
    · exact ih h

end Cut

namespace Segment

def data : Segment → Bytes
  | .octets data => data
  | .file f => f.content.getD []

def isPresent : Segment → Bool
  | .octets _ => true
  | .file f => f.content.isSome

theorem size_of_present {s : Segment} (h : s.isPresent = true) :
    s.size = .ok s.data.length := by
  cases s with
  | octets data => rfl
  | file f =>
    obtain ⟨data, hdata⟩ := Option.isSome_iff_exists.1 h
    simp [Segment.size, FileRef.size, Segment.data, hdata]

end Segment

namespace RequestBody

def octets (b : RequestBody) : Bytes := b.segments.flatMap Segment.data

def isPresent (b : RequestBody) : Bool := b.segments.all (·.isPresent)

theorem streamOf_present {segments : List Segment} (h : ∀ s ∈ segments, s.isPresent = true) :
    (streamOf segments).failure = none ∧
      (streamOf segments).chunks.flatten = segments.flatMap Segment.data ∧
      ∀ chunk ∈ (streamOf segments).chunks, chunk ≠ [] := by
  induction segments with
  | nil => exact ⟨rfl, rfl, by simp [streamOf]⟩
  | cons s rest ih =>
    obtain ⟨hfailure, hflatten, hne⟩ := ih fun s hs => h s (List.mem_cons_of_mem _ hs)
    cases s with
    | octets data =>
      simp only [streamOf]
      split
      · next hempty =>
        rw [List.isEmpty_iff.1 hempty]
        exact ⟨hfailure, hflatten, hne⟩
      · next hfull =>
        refine ⟨hfailure, ?_, fun chunk hc => ?_⟩
        · rw [List.flatten_cons, hflatten]
          rfl
        · rcases List.mem_cons.1 hc with rfl | hc
          · exact fun he => hfull (List.isEmpty_iff.2 he)
          · exact hne chunk hc
    | file f =>
      obtain ⟨data, hdata⟩ := Option.isSome_iff_exists.1 (h _ List.mem_cons_self)
      simp only [streamOf, hdata]
      refine ⟨hfailure, ?_, fun chunk hc => ?_⟩
      · rw [List.flatten_append, Bytes.flatten_cut (by decide), hflatten, List.flatMap_cons]
        simp [Segment.data, hdata]
      · rcases List.mem_append.1 hc with hc | hc
        · exact Bytes.ne_nil_of_mem_cut hc
        · exact hne chunk hc

theorem stream_present {b : RequestBody} (h : b.isPresent = true) :
    b.stream.failure = none ∧ b.stream.chunks.flatten = b.octets ∧
      ∀ chunk ∈ b.stream.chunks, chunk ≠ [] :=
  streamOf_present (List.all_eq_true.1 h)

theorem mapM_size {segments : List Segment} (h : ∀ s ∈ segments, s.isPresent = true) :
    segments.mapM Segment.size = .ok (segments.map (·.data.length)) := by
  induction segments with
  | nil => rfl
  | cons s rest ih =>
    rw [List.mapM_cons, Segment.size_of_present (h s List.mem_cons_self),
      ih fun s hs => h s (List.mem_cons_of_mem _ hs)]
    rfl

theorem sum_lengths (segments : List Segment) :
    (segments.map (·.data.length)).foldr (· + ·) 0 = (segments.flatMap Segment.data).length := by
  induction segments with
  | nil => rfl
  | cons s rest ih =>
    rw [List.map_cons, List.foldr_cons, ih, List.flatMap_cons, List.length_append]

theorem length_form {f : Form} (h : (form f).isPresent = true) :
    f.length = .ok (form f).octets.length := by
  have hsizes : f.segments.mapM Segment.size = .ok (f.segments.map (·.data.length)) :=
    mapM_size (List.all_eq_true.1 h)
  simp only [Form.length, hsizes, bind, Except.bind, pure, Except.pure]
  exact congrArg Except.ok (sum_lengths f.segments)

def isChunks : RequestBody → Bool
  | .chunks _ _ => true
  | _ => false

theorem octets_chunks (pieces : List Bytes) (length : Option Nat) :
    (chunks pieces length).octets = pieces.flatten := by
  simp [octets, segments, List.flatMap_map, Segment.data, List.flatMap_id']

theorem declaredLength_present {b : RequestBody} (h : b.isPresent = true)
    (hb : b.isChunks = false) : b.declaredLength = .ok (some b.octets.length) := by
  cases b with
  | empty => rfl
  | memory data => simp [declaredLength, octets, segments, Segment.data]
  | chunks pieces length => cases hb
  | file f =>
    obtain ⟨data, hdata⟩ :=
      Option.isSome_iff_exists.1 (List.all_eq_true.1 h (.file f) List.mem_cons_self)
    simp [declaredLength, FileRef.size, octets, segments, Segment.data, hdata, Except.map]
  | form f =>
    simp only [declaredLength, length_form h]
    rfl

end RequestBody

namespace Payload

/-- What is wrong with `sent` octets where `n` are promised. -/
def verdict (n sent : Nat) : Option ProtocolError :=
  if n < sent then some .bodyTooLong else if sent < n then some .bodyTooShort else none

theorem verdict_self (n : Nat) : verdict n n = none := by
  simp [verdict]

theorem eq_of_verdict {n sent : Nat} (h : verdict n sent = none) : n = sent := by
  unfold verdict at h
  split at h
  · cases h
  · split at h
    · cases h
    · omega

theorem ofStream_counted {stream : BodyStream} (hs : stream.failure = none) (n : Nat) :
    (ofStream (.counted n) stream).failure =
        (verdict n stream.chunks.flatten.length).map .protocol ∧
      (stream.chunks.flatten.length ≤ n →
        (ofStream (.counted n) stream).writes.flatten = stream.chunks.flatten) := by
  refine ⟨?_, fun h => (ofStream_fits hs h).1⟩
  by_cases h : n < stream.chunks.flatten.length
  · obtain ⟨front, chunk, back, -, -, -, hfails⟩ := ofStream_long h
    rw [hfails, verdict, if_pos h]
    rfl
  · rw [(ofStream_fits hs (Nat.le_of_not_lt h)).2, verdict, if_neg h]
    split <;> rfl

end Payload

namespace RequestBody

/-- How pieces miss the length that the caller has stated for them. -/
def mismatch : RequestBody → Option ProtocolError
  | .chunks pieces (some n) => Payload.verdict n pieces.flatten.length
  | _ => none

theorem mismatch_eq {b : RequestBody} {length : Option Nat} (h : b.isPresent = true)
    (hl : b.declaredLength = .ok length) :
    b.mismatch = length.bind (Payload.verdict · b.octets.length) := by
  cases b with
  | chunks pieces stated =>
    cases hl
    rw [octets_chunks]
    cases length <;> rfl
  | _ =>
    rw [declaredLength_present h rfl] at hl
    cases hl
    exact (Payload.verdict_self _).symm

end RequestBody

namespace Prepared

/-- How a reader of requests delimits a body. Without any of the two fields there is none. -/
def bodyFraming (h : Fields) : Except Malformed Framing :=
  if framingNames.any h.contains then Framing.resolve h false else .ok (.length 0)

/-- Behind a head with this framing a reader gets `octets` from `body` and stops at its end. -/
def Reads (framing : Framing) (body octets : Bytes) : Prop :=
  ∀ (q : Parser) (rest : Bytes), q.limits = .unlimited → q.phase = Parser.bodyPhase framing →
    q.buffer = body ++ rest →
    ∃ chunks : List Bytes,
      q.Finishes (chunks.map .chunk ++ [.complete .empty]) rest ∧ chunks.flatten = octets

theorem reads_counted {octets : Bytes} (hfits : octets.length ≤ Numeral.wordLimit) :
    Reads (.length octets.length) octets octets := fun _ _ hl hp hb =>
  ⟨_, Parser.finishes_body (b := .counted octets) hfits hl hp hb,
    WrittenBody.flatten_pieces (.counted octets)⟩

def lastLine : LastLine :=
  ⟨[], 1, [], [], by simp, by decide, by decide, by simp, by decide⟩

theorem reads_chunked {chunks : List Bytes} (hne : ∀ chunk ∈ chunks, chunk ≠ [])
    (hfits : chunks.flatten.length ≤ Numeral.wordLimit) :
    Reads .chunked (chunks.flatMap Chunk.encode ++ Chunk.last) chunks.flatten :=
  fun _ _ hl hp hb =>
    ⟨chunks, Parser.finishes_body (b := .chunked chunks hne lastLine []) hfits hl hp hb, rfl⟩

/-- The head and the body of a request, as they are written, agree with each other. -/
structure FramesBody (r : Request) (p : Prepared) (length : Option Nat) : Prop where
  stated : p.head.fields.values "Content-Length" =
    match length with
    | some n =>
      if 0 < n ∨ bodyMethods.any (Text.sameWord · r.method) then [Numeral.decimal n] else []
    | none => []
  coded : p.head.fields.values "Transfer-Encoding" = if length = none then ["chunked"] else []
  failure : (Payload.ofRequest p r.body).failure = r.body.mismatch.map .protocol
  reads : r.body.mismatch = none → r.body.octets.length ≤ Numeral.wordLimit →
    ∃ body framing, (Payload.ofRequest p r.body).writes.flatten = p.head.lines ++ body ∧
      bodyFraming p.head.fields = .ok framing ∧ Reads framing body r.body.octets

section Announced

variable {r : Request} {version : Version} {defaults h h' : Fields} {p : Prepared}
  {framing : PayloadFraming}

theorem announce_of_frame (hf : frame r h = .ok (h', framing)) (ht : isTrace r.method = false)
    (uncoded : h.contains "Transfer-Encoding" = false)
    (unstated : h.contains "Content-Length" = false) :
    ∃ length, r.body.declaredLength = .ok length ∧
      announce r.method length h = .ok (h', framing) := by
  have hget : h.get? "Content-Length" = none := by
    rw [h.get?_eq_head?, (h.values_eq_nil_iff _).2 unstated]
    rfl
  simp only [frame, bodyOf, ht, uncoded, hget, Bool.false_eq_true, ite_false, bind, Except.bind,
    pure, Except.pure] at hf
  cases hd : r.body.declaredLength with
  | error failure =>
    simp only [hd, Except.mapError] at hf
    cases hf
  | ok length =>
    simp only [hd, Except.mapError] at hf
    refine ⟨length, rfl, ?_⟩
    cases ha : announce r.method length h with
    | error error =>
      simp only [ha] at hf
      cases hf
    | ok result =>
      simp only [ha] at hf
      cases hf
      rfl

theorem announced_of_prepare (hp : prepare r version defaults = .ok p)
    (ht : isTrace r.method = false)
    (hgiven : ∀ n ∈ framingNames, r.fields.contains n = false ∧ defaults.contains n = false) :
    ∃ completed length, r.body.declaredLength = .ok length ∧
      (∀ n ∈ framingNames, completed.contains n = false) ∧
      announce r.method length completed = .ok (p.head.fields, p.framing) ∧
      p.sendsBody = true := by
  obtain ⟨completed, hc, hf, hs⟩ := frame_of_prepare hp
  have hnone : ∀ n ∈ framingNames, completed.contains n = false := fun n hn => by
    rw [Fields.contains_congr (values_of_complete hc hn), Fields.contains_mergeMissing,
      (hgiven n hn).1, (hgiven n hn).2, Bool.false_or]
  obtain ⟨length, hlength, ha⟩ :=
    announce_of_frame hf ht (hnone _ (by decide)) (hnone _ (by decide))
  exact ⟨completed, length, hlength, hnone, ha, by rw [hs, ht]; rfl⟩

theorem ofRequest_sent (hs : p.sendsBody = true) (b : RequestBody) :
    Payload.ofRequest p b = (Payload.ofStream p.framing b.stream).write p.head.lines := by
  simp only [Payload.ofRequest, hs, if_true]

theorem framesBody_counted {n : Nat} (hs : p.sendsBody = true) (hfiles : r.body.isPresent = true)
    (hlength : r.body.declaredLength = .ok (some n)) (hframing : p.framing = .counted n)
    (stated : p.head.fields.values "Content-Length" =
      if 0 < n ∨ bodyMethods.any (Text.sameWord · r.method) then [Numeral.decimal n] else [])
    (coded : p.head.fields.values "Transfer-Encoding" = [])
    (hfields : n ≤ Numeral.wordLimit → bodyFraming p.head.fields = .ok (.length n)) :
    FramesBody r p (some n) := by
  obtain ⟨hstream, hall, -⟩ := RequestBody.stream_present hfiles
  obtain ⟨hfailure, hwrites⟩ := Payload.ofStream_counted hstream n
  have hmismatch := RequestBody.mismatch_eq hfiles hlength
  refine ⟨stated, coded, ?_, fun hwell hfits => ?_⟩
  · rw [ofRequest_sent hs, Payload.failure_write, hframing, hmismatch]
    exact hfailure.trans (by rw [hall]; rfl)
  · have hn : n = r.body.octets.length := Payload.eq_of_verdict (hmismatch.symm.trans hwell)
    refine ⟨r.body.octets, .length n, ?_, hfields (hn ▸ hfits), hn ▸ reads_counted hfits⟩
    rw [ofRequest_sent hs, Payload.flatten_write, hframing,
      hwrites (Nat.le_of_eq (by rw [hall, hn])), hall]

theorem framesBody_chunked (hs : p.sendsBody = true) (hfiles : r.body.isPresent = true)
    (hlength : r.body.declaredLength = .ok none) (hframing : p.framing = .chunked)
    (stated : p.head.fields.values "Content-Length" = [])
    (coded : p.head.fields.values "Transfer-Encoding" = ["chunked"])
    (hfields : bodyFraming p.head.fields = .ok .chunked) : FramesBody r p none := by
  obtain ⟨hstream, hall, hne⟩ := RequestBody.stream_present hfiles
  obtain ⟨hfailure, hwrites⟩ := Payload.ofStream_chunked hstream
  have hmismatch := RequestBody.mismatch_eq hfiles hlength
  refine ⟨stated, coded, ?_, fun _ hfits => ?_⟩
  · rw [ofRequest_sent hs, Payload.failure_write, hframing, hmismatch]
    exact hfailure
  · refine ⟨_, .chunked, ?_, hfields, hall ▸ reads_chunked hne (hall ▸ hfits)⟩
    rw [ofRequest_sent hs, Payload.flatten_write, hframing, hwrites]

theorem framesBody_of_prepare (hp : prepare r version defaults = .ok p)
    (ht : isTrace r.method = false)
    (hgiven : ∀ n ∈ framingNames, r.fields.contains n = false ∧ defaults.contains n = false)
    (hfiles : r.body.isPresent = true) :
    ∃ length, r.body.declaredLength = .ok length ∧ FramesBody r p length := by
  obtain ⟨completed, length, hlength, hnone, ha, hs⟩ := announced_of_prepare hp ht hgiven
  have huncoded : completed.contains "Transfer-Encoding" = false := hnone _ (by decide)
  have hunstated : completed.contains "Content-Length" = false := hnone _ (by decide)
  have hcoded := (completed.values_eq_nil_iff _).2 huncoded
  have hstated := (completed.values_eq_nil_iff _).2 hunstated
  refine ⟨length, hlength, ?_⟩
  rcases announce_cases ha huncoded hunstated with
    ⟨n, rfl, hframing, hn, hfields⟩ | ⟨rfl, hframing, hmethod, hfields⟩ | ⟨rfl, hframing, hfields⟩
  · have hother : Text.sameWord "Content-Length" "Transfer-Encoding" = false := by decide
    refine framesBody_counted hs hfiles hlength hframing ?_ ?_ fun hfits => ?_
    · rw [hfields, Fields.values_push, hstated, if_pos hn]
      simp [Field.named, Text.sameWord_refl]
    · rw [hfields, Fields.values_push, hcoded]
      simp [Field.named, hother]
    · have hany : framingNames.any p.head.fields.contains = true := by
        simp [framingNames, hfields, Fields.contains_push, Field.named, Text.sameWord_refl]
      rw [bodyFraming, if_pos hany, hfields]
      exact (Framing.resolve_push_length_iff huncoded hunstated).2 hfits
  · refine framesBody_counted hs hfiles hlength hframing ?_ ?_ fun _ => ?_
    · rw [hfields, hstated]
      simp [hmethod]
    · rw [hfields, hcoded]
    · have hany : framingNames.any p.head.fields.contains = false := by
        simp [framingNames, hfields, huncoded, hunstated]
      simp [bodyFraming, hany]
  · have hother : Text.sameWord "Transfer-Encoding" "Content-Length" = false := by decide
    refine framesBody_chunked hs hfiles hlength hframing ?_ ?_ ?_
    · rw [hfields, Fields.values_push, hstated]
      simp [Field.named, hother]
    · rw [hfields, Fields.values_push, hcoded]
      simp [Field.named, Text.sameWord_refl]
    · have hany : framingNames.any p.head.fields.contains = true := by
        simp [framingNames, hfields, Fields.contains_push, Field.named, Text.sameWord_refl]
      rw [bodyFraming, if_pos hany, hfields]
      exact Framing.resolve_push_chunked huncoded hunstated

/-- Where nobody else frames the body, its announced length is right, the fields say how it is
written, and only pieces that miss their stated length cannot be sent. -/
theorem frames_body (r : Request) (version : Version) (defaults : Fields)
    (ht : isTrace r.method = false)
    (hgiven : ∀ n ∈ framingNames, r.fields.contains n = false ∧ defaults.contains n = false)
    (hfiles : r.body.isPresent = true) :
    (r.body.stream.failure = none ∧ r.body.stream.chunks.flatten = r.body.octets ∧
      (∀ chunk ∈ r.body.stream.chunks, chunk ≠ []) ∧
      (r.body.isChunks = false → r.body.declaredLength = .ok (some r.body.octets.length))) ∧
    ∀ p, prepare r version defaults = .ok p →
      ∃ length, r.body.declaredLength = .ok length ∧ FramesBody r p length := by
  obtain ⟨hfailure, hflatten, hne⟩ := RequestBody.stream_present hfiles
  refine ⟨⟨hfailure, hflatten, hne, RequestBody.declaredLength_present hfiles⟩, fun p hp => ?_⟩
  exact framesBody_of_prepare hp ht hgiven hfiles

end Announced

/-- A text and a file, in a form that is sent in parts. -/
def upload : Request :=
  { posting [] "" with
    body := .form ⟨[⟨"note", .text "hi", "text/plain"⟩,
      ⟨"file", .file ⟨"a.txt", some (Bytes.ofText "data")⟩, "text/plain"⟩], "edge"⟩ }

theorem frames_body_upload :
    ∃ p, prepare upload .http11 .empty = .ok p ∧
      FramesBody upload p (some upload.body.octets.length) := by
  have hframes := frames_body upload .http11 .empty (by decide) (by decide) (by decide)
  have hok : (prepare upload .http11 .empty).toOption.isSome = true := by decide +kernel
  obtain ⟨p, hp⟩ : ∃ p, prepare upload .http11 .empty = .ok p := by
    cases hp : prepare upload .http11 .empty with
    | ok p => exact ⟨p, rfl⟩
    | error failure => simp [hp, Except.toOption] at hok
  obtain ⟨length, hlength, hp'⟩ := hframes.2 p hp
  cases (hframes.1.2.2.2 rfl).symm.trans hlength
  exact ⟨p, hp, hp'⟩

end Prepared
end HttpClient
