import HttpClient.Proofs.Response.Calls
import HttpClient.Proofs.Response.Position
set_option autoImplicit false

/-!
Writing undoes reading. Of the octets that a parser has taken in nothing is dropped, invented or
altered: a head that it reports and the interim ones before it are written in them, line by line,
and so is a chunked body. Only about size lines the reader is laxer than the grammar.
-/

namespace HttpClient

namespace Parser

variable {p q r : Parser} {data more : Bytes} {es : List Event}

theorem move_of_advance_some {e : Event} (h : p.advance = (.ok (some e), q)) :
    ∃ (r : Parser) (phase : Phase) (rest : Bytes), Leads p [] r ∧ r.move = .event e phase rest ∧
      q = r.record e phase rest := by
  fun_induction advance p with
  | case1 => simp at h
  | case2 p phase rest hm ih =>
    obtain ⟨r, phase', rest', hr, hevent, hq⟩ := ih h
    exact ⟨r, phase', rest', .next hm hr, hevent, hq⟩
  | case3 p e phase rest hm =>
    cases h
    exact ⟨p, phase, rest, .refl p, hm, rfl⟩
  | case4 => simp at h

theorem Placed.headed (h : p.Placed data es q) {head : ResponseHead} {bodiless : Bool}
    (feed : q.feed more = (.ok (some (.head head bodiless)), r)) :
    ∃ heads : WrittenHeads, data ++ more = heads.bytes ++ r.buffer ∧ heads.final.head = head := by
  unfold Parser.feed at feed
  split at feed
  · cases feed
  obtain ⟨s, phase, rest, hs, hm, rfl⟩ := move_of_advance_some feed
  have placed := (h.append more).leads hs
  obtain ⟨taken, htaken, position⟩ := placed.position
  obtain ⟨-, heads, -, -, hb, hheads, hfinal, -⟩ := position.headed placed.limits placed.noBody hm
  refine ⟨heads, ?_, hfinal⟩
  rw [htaken, hb, ← List.append_assoc, hheads]
  rfl

/-- Whatever a new parser was fed, in whatever pieces: when it reports a head, the octets taken in
so far are whole interim heads and then one head, whose status line is written with the version,
the status and the reason that are reported, and whose field lines are written one for each
reported field, in order, with nothing but spaces and tabs around the value. -/
theorem head_is_written (limits : Limits) (method : String)
    (reports : (forMethod method limits).Reports data es q) {head : ResponseHead} {bodiless : Bool}
    (feed : q.feed more = (.ok (some (.head head bodiless)), r)) :
    ∃ heads : WrittenHeads, data ++ more = heads.bytes ++ r.buffer ∧ heads.final.head = head :=
  (reports.placed rfl rfl).headed feed

def continued : Bytes :=
  Bytes.ofText "HTTP/1.1 100 Continue\r\nA: b\r\n\r\nHTTP/1.1 200 \r\nContent-Length:\t2 \r\n\r\nh"

theorem head_is_written_continued :
    ∃ heads : WrittenHeads,
      continued = heads.bytes ++ ((forMethod "GET" .standard).feed continued).2.buffer ∧
        heads.final.head = ⟨⟨.http11, 200, ""⟩, ⟨[⟨"Content-Length", "2"⟩]⟩⟩ := by
  have hfeed : (forMethod "GET" .standard).feed continued =
      (.ok (some (.head ⟨⟨.http11, 200, ""⟩, ⟨[⟨"Content-Length", "2"⟩]⟩⟩ false)),
        ((forMethod "GET" .standard).feed continued).2) := by decide +kernel
  have hwritten := head_is_written .standard "GET" .start hfeed
  rwa [List.nil_append] at hwritten

end Parser

/-- The octets are heads, this head the last of them, then this body with this payload and these
trailers, and then what is left. -/
structure ChunkedBody.Explains (body : ChunkedBody) (data : Bytes) (head : ResponseHead)
    (payload : Bytes) (trailers : Fields) (left : Bytes) : Prop where
  octets : ∃ heads : WrittenHeads, heads.final.head = head ∧
    data = heads.bytes ++ (body.bytes ++ left)
  payload_eq : body.payload = payload
  trailers_eq : body.fields = trailers

namespace ChunkedBody

variable {body body' : ChunkedBody} {data left : Bytes} {head : ResponseHead}

theorem Explains.bytes_eq {payload payload' : Bytes} {trailers trailers' : Fields}
    {head' : ResponseHead} (h : body.Explains data head payload trailers left)
    (h' : body'.Explains data head' payload' trailers' left) : body.bytes = body'.bytes := by
  obtain ⟨heads, -, hdata⟩ := h.octets
  obtain ⟨heads', -, hdata'⟩ := h'.octets
  have hends := ResponseHead.final?_heads heads (body.bytes ++ left)
  rw [← hdata, hdata', ResponseHead.final?_heads, Option.some.injEq, Prod.mk.injEq] at hends
  exact (List.append_cancel_right hends.2).symm

end ChunkedBody

namespace Parser

variable {p q : Parser} {data : Bytes} {es : List Event}

theorem body_of_came {l : Limits} {trailers : Fields} {left octets payload : Bytes}
    (h : Framing.Came l (.complete (some trailers)) left .chunked octets payload) :
    ∃ body : ChunkedBody, octets = body.bytes ∧ payload = body.payload ∧ trailers = body.fields ∧
      (ChunkedPart.whole body).Within l := by
  cases h with
  | plain unchunked => exact absurd rfl unchunked
  | chunked part stands within =>
    cases part with
    | whole body =>
      cases stands
      exact ⟨body, rfl, rfl, rfl, within⟩
    | between chunks => rcases stands with h | ⟨h, -⟩ <;> cases h
    | _ => cases stands

theorem Placed.explained (h : p.Placed data es q) {head : ResponseHead} {bodiless : Bool}
    {trailers : Fields} (hh : .head head bodiless ∈ es)
    (framed : Framing.resolve head.fields (p.noBody head.start.status) = .ok .chunked)
    (hc : .complete trailers ∈ es) : ∃ body : ChunkedBody,
      body.Explains data head (es.flatMap Event.octets) trailers q.buffer := by
  obtain ⟨taken, rfl, position⟩ := h.position
  cases position with
  | statusLine => cases hh
  | fieldLines => cases hh
  | body heads admits bodiless pieces came => simp at hc
  | @ended heads framing admits bodiless' octets left pieces trailers' came ends =>
    have hhead : head = heads.final.head ∧ bodiless = bodiless' := by simpa using hh
    have htrailers : trailers = trailers' := by simpa using hc
    obtain ⟨rfl, rfl⟩ := hhead
    subst htrailers
    cases admits.framed.symm.trans framed
    obtain ⟨body, rfl, hpayload, htrailers, -⟩ := body_of_came came
    refine ⟨body, ⟨heads, rfl, List.append_assoc ..⟩, ?_, htrailers.symm⟩
    simp [List.flatMap_append, octets_of_pieces, Event.octets, ← hpayload]

/-- When a response with a chunked body is complete, the octets after its head are chunks, each with
a size line and as many octets as that names, a line that names size 0, trailer lines and an empty
line; the chunks hold what was handed out, and the trailers are what the trailer lines say, none of
which holds a CR or LF. The size lines are as the grammar has them exactly if none holds a CR or LF,
nor a form feed before its extension. -/
theorem chunked_body_strict_iff (limits : Limits) (method : String)
    (reports : (forMethod method limits).Reports data es q) {head : ResponseHead} {bodiless : Bool}
    {trailers : Fields} (hh : .head head bodiless ∈ es)
    (framed : Framing.resolve head.fields ((forMethod method limits).noBody head.start.status) =
      .ok .chunked) (hc : .complete trailers ∈ es) :
    ∃ body : ChunkedBody, body.Explains data head (es.flatMap Event.octets) trailers q.buffer ∧
      (∀ l ∈ body.trailers, Bytes.cr ∉ l.line ∧ Bytes.lf ∉ l.line) ∧
      ((∃ body' : ChunkedBody,
        body'.Explains data head (es.flatMap Event.octets) trailers q.buffer ∧ body'.Strict) ↔
          ∀ line ∈ body.sizeLines, Chunk.Plain line) := by
  obtain ⟨body, explains⟩ := (reports.placed rfl rfl).explained hh framed hc
  refine ⟨body, explains, fun l _ => l.not_mem_line, ?_⟩
  rw [← body.strict_iff_plain]
  constructor
  · rintro ⟨body', explains', strict⟩
    rw [ChunkedBody.strict_iff_plain] at strict ⊢
    rwa [ChunkedBody.sizeLines_unique (explains.bytes_eq explains')]
  · exact fun strict => ⟨body, explains, strict⟩

/-- A response of one chunk with such a size line. -/
def chunkSized (size : String) : Bytes :=
  Bytes.ofText ("HTTP/1.1 200 OK\r\nTransfer-Encoding: chunked\r\n\r\n" ++ size ++
    "\r\nhello\r\n0\r\n\r\n")

def chunkedHead : ResponseHead := ⟨⟨.http11, 200, "OK"⟩, ⟨[⟨"Transfer-Encoding", "chunked"⟩]⟩⟩

def chunkSizedEvents : List Event :=
  [.head chunkedHead false, .chunk (Bytes.ofText "hello"), .complete .empty]

theorem chunked_body_strict_iff_spaced :
    ∃ body : ChunkedBody, body.Explains (chunkSized "5 ;a") chunkedHead
        (chunkSizedEvents.flatMap Event.octets) .empty
        ((forMethod "GET" .standard).drain (chunkSized "5 ;a")).2.2.buffer ∧
      (∀ l ∈ body.trailers, Bytes.cr ∉ l.line ∧ Bytes.lf ∉ l.line) ∧
      ((∃ body' : ChunkedBody, body'.Explains (chunkSized "5 ;a") chunkedHead
          (chunkSizedEvents.flatMap Event.octets) .empty
          ((forMethod "GET" .standard).drain (chunkSized "5 ;a")).2.2.buffer ∧
        body'.Strict) ↔ ∀ line ∈ body.sizeLines, Chunk.Plain line) := by
  have hd : (forMethod "GET" .standard).drain (chunkSized "5 ;a") =
      (chunkSizedEvents, none, ((forMethod "GET" .standard).drain (chunkSized "5 ;a")).2.2) := by
    decide +kernel
  have hh : Event.head chunkedHead false ∈ chunkSizedEvents := by decide
  have hc : Event.complete .empty ∈ chunkSizedEvents := by decide
  have framed : Framing.resolve chunkedHead.fields
      ((forMethod "GET" .standard).noBody chunkedHead.start.status) = .ok .chunked := by
    decide +kernel
  exact chunked_body_strict_iff .standard "GET" (.of_drain hd) hh framed hc

/-- A size line with a bare line feed is read, though no strict body has these octets. -/
theorem lineFeed_in_sizeLine :
    (forMethod "GET" .standard).Reports (chunkSized "5\n") chunkSizedEvents
        ((forMethod "GET" .standard).drain (chunkSized "5\n")).2.2 ∧
      ((forMethod "GET" .standard).drain (chunkSized "5\n")).2.2.buffer = [] ∧
      Framing.resolve chunkedHead.fields ((forMethod "GET" .standard).noBody 200) = .ok .chunked ∧
      ¬∃ body : ChunkedBody, body.Explains (chunkSized "5\n") chunkedHead
        (chunkSizedEvents.flatMap Event.octets) .empty [] ∧ body.Strict := by
  have hd : (forMethod "GET" .standard).drain (chunkSized "5\n") =
      (chunkSizedEvents, none, ((forMethod "GET" .standard).drain (chunkSized "5\n")).2.2) := by
    decide +kernel
  refine ⟨.of_drain hd, by decide +kernel, by decide +kernel, ?_⟩
  rintro ⟨body, ⟨⟨heads, -, hdata⟩, -, -⟩, strict⟩
  have hfinal : ResponseHead.final? (chunkSized "5\n") =
      some (200, Bytes.ofText "5\n\r\nhello\r\n0\r\n\r\n") := by decide +kernel
  rw [hdata, ResponseHead.final?_heads, Option.some.injEq, Prod.mk.injEq] at hfinal
  have hfirst : Bytes.splitLine (Bytes.ofText "5\n\r\nhello\r\n0\r\n\r\n") =
      some (Bytes.ofText "5\n", Bytes.ofText "hello\r\n0\r\n\r\n") := by decide +kernel
  rw [← hfinal.2] at hfirst
  have plain := body.strict_iff_plain.1 strict _ (body.mem_sizeLines_of_splitLine hfirst)
  exact plain.no_lf (by decide +kernel)

end Parser
end HttpClient
