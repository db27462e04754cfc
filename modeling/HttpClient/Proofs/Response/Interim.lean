import HttpClient.Proofs.Response.Position
set_option autoImplicit false

/-!
Interim heads leave no trace. A parser that has read one is as new, and its octets may be left out
of the fragments: wherever the fragments are cut, the same is reported and the same is left.
-/

namespace HttpClient

namespace Bytes

def skip : Nat → List Bytes → List Bytes
  | _, [] => []
  | n, data :: more => data.drop n :: skip (n - data.length) more

theorem skip_zero (fs : List Bytes) : skip 0 fs = fs := by
  induction fs with
  | nil => rfl
  | cons data fs ih => rw [skip, List.drop_zero, Nat.zero_sub, ih]

theorem flatten_skip (n : Nat) (fs : List Bytes) : (skip n fs).flatten = fs.flatten.drop n := by
  induction fs generalizing n with
  | nil => simp [skip]
  | cons data fs ih => rw [skip, List.flatten_cons, ih, List.flatten_cons, List.drop_append]

end Bytes

namespace Parser

variable {p q : Parser} {rest done left m : Bytes} {start : StatusLine} {fields : Fields}
  {used : Nat}

/-- Goes on as the other parser does, if it does not fail. -/
def PassesTo (p q : Parser) : Prop :=
  (∃ error r, p.advance = (.error error, r)) ∨ p.advance = q.advance

theorem PassesTo.of_next {phase : Phase} (hm : p.move = .next phase rest)
    (h : PassesTo { p with phase := phase, buffer := rest } q) : PassesTo p q := by
  unfold PassesTo at h ⊢
  rwa [advance_of_next hm]

theorem PassesTo.of_fail {error : ParseError} (hm : p.move = .fail error) : PassesTo p q :=
  .inl ⟨error, _, advance_of_fail hm⟩

theorem passesTo_lines (lines : List FieldLine) (hp : p.phase = .fieldLines start fields used)
    (hb : p.buffer = lines.flatMap FieldLine.bytes ++ (Bytes.crlf ++ rest))
    (hi : isInterim start.status = true) :
    PassesTo p { p with phase := .statusLine, buffer := rest } := by
  induction lines generalizing p fields used with
  | nil =>
    have hs : Bytes.splitLine p.buffer = some ([], rest) := hb ▸ Bytes.splitLine_empty rest
    by_cases hsize : p.limits.headTooLarge (used + 2) = true
    · have hm : p.move = p.headTooLarge (used + 2) := by
        simp only [move, hp, moveFieldLines, hs]
        simp [hsize]
      exact .of_fail hm
    · have hm : p.move = .next .statusLine rest := by
        simp only [move, hp, moveFieldLines, hs]
        simp [hsize, endHead, hi]
      exact .of_next hm (.inr rfl)
  | cons l lines ih =>
    rw [List.flatMap_cons, List.append_assoc] at hb
    have hs := l.splitLine_bytes (lines.flatMap FieldLine.bytes ++ (Bytes.crlf ++ rest))
    rw [← hb] at hs
    by_cases hsize : p.limits.headTooLarge (used + l.line.length + 2) = true
    · have hm : p.move = p.headTooLarge (used + l.line.length + 2) := by
        simp only [move, hp, moveFieldLines, hs]
        simp [hsize]
      exact .of_fail hm
    cases hadd : p.addField fields l.line with
    | error error =>
      have hm : p.move = .fail error := by
        simp only [move, hp, moveFieldLines, hs]
        simp [hsize, l.line_ne_nil, hadd]
      exact .of_fail hm
    | ok fields' =>
      have hm : p.move = .next (.fieldLines start fields' (used + l.line.length + 2))
          (lines.flatMap FieldLine.bytes ++ (Bytes.crlf ++ rest)) := by
        simp only [move, hp, moveFieldLines, hs]
        simp [hsize, l.line_ne_nil, hadd]
      exact .of_next hm (ih rfl rfl)

theorem passesTo_head (h : WrittenHead) (hp : p.phase = .statusLine)
    (hb : p.buffer = h.bytes ++ rest) (hi : isInterim h.start.status = true) :
    PassesTo p { p with phase := .statusLine, buffer := rest } := by
  have hs := StatusLine.splitLine_written h.valid h.written
    (h.lines.flatMap FieldLine.bytes ++ (Bytes.crlf ++ rest))
  have hbytes : h.startLine ++ Bytes.crlf ++
      (h.lines.flatMap FieldLine.bytes ++ (Bytes.crlf ++ rest)) = p.buffer := by
    simp [hb, WrittenHead.bytes, WrittenHead.opening]
  rw [hbytes] at hs
  by_cases hsize : p.limits.headTooLarge (h.startLine.length + 2) = true
  · have hm : p.move = p.headTooLarge (h.startLine.length + 2) := by
      simp only [move, hp, moveStatusLine, hs]
      simp [hsize]
    exact .of_fail hm
  · have hm : p.move = .next (.fieldLines h.start .empty (h.startLine.length + 2))
        (h.lines.flatMap FieldLine.bytes ++ (Bytes.crlf ++ rest)) := by
      simp only [move, hp, moveStatusLine, hs]
      simp [hsize, StatusLine.read_written h.valid h.written]
    exact .of_next hm (passesTo_lines h.lines rfl rfl hi)

/-- After these octets the parser has reported nothing and is as it was. -/
def Absorbs (p : Parser) (octets : Bytes) : Prop := (p.append octets).advance = (.ok none, p)

theorem absorbs_nil (hp : p.Settled) : p.Absorbs [] := by
  rw [Absorbs, append_nil]
  exact advance_of_wait hp

theorem absorbs_head (h : WrittenHead) (hi : isInterim h.start.status = true)
    (hp : p.phase = .statusLine) (hb : p.buffer = []) (hs : p.Settled)
    (hd : (p.drain h.bytes).2.1 = none) : p.Absorbs h.bytes := by
  have hpass : PassesTo (p.append h.bytes) { p with phase := .statusLine, buffer := [] } :=
    @passesTo_head (p.append h.bytes) [] h hp (by simp [append, hb]) hi
  rcases hpass with ⟨error, r, herror⟩ | hsame
  · rw [hs.drain_eq, events_of_advance_error herror] at hd
    cases hd
  · have hself : ({ p with phase := .statusLine, buffer := [] } : Parser) = p := by
      rw [← hp, ← hb]
    rw [Absorbs, hsame, hself]
    exact advance_of_wait hs

theorem Absorbs.append (h : p.Absorbs done) (hp : p.phase.part = .head) (more : Bytes) :
    (p.append (done ++ more)).advance = (p.append more).advance := by
  rw [← append_append]
  cases foretells (p := p.append done) hp more with
  | nothing now part unended later =>
    cases h.symm.trans now
    exact later
  | head now => cases h.symm.trans now
  | fault now => cases h.symm.trans now

theorem Absorbs.trans (h : p.Absorbs done) (h' : p.Absorbs rest) (hp : p.phase.part = .head) :
    p.Absorbs (done ++ rest) := (h.append hp rest).trans h'

/-- In the middle of absorbed octets the parser waits, and what comes next is read as if it came
with what is there. -/
theorem Absorbs.midway (h : p.Absorbs (done ++ left)) (hp : p.phase.part = .head) :
    ∃ q, (p.append done).advance = (.ok none, q) ∧ q.Settled ∧
      ∀ more, (q.append more).advance = (p.append (done ++ more)).advance := by
  rw [Absorbs, ← append_append] at h
  cases foretells (p := p.append done) hp left with
  | @nothing q now =>
    refine ⟨q, now, settled_of_events (events_of_advance_none now), fun more => ?_⟩
    rw [← append_append]
    cases foretells (p := p.append done) hp more with
    | nothing now' part unended later =>
      cases now.symm.trans now'
      exact later.symm
    | head now' => cases now.symm.trans now'
    | fault now' => cases now.symm.trans now'
  | head now ends later => cases h.symm.trans later
  | fault now later => cases h.symm.trans later

theorem drainAll_skip (h : p.Absorbs (done ++ left)) (hp : p.phase.part = .head)
    (hq : (p.append done).advance = (.ok none, q)) {fs : List Bytes}
    (hfs : fs.flatten = left ++ m) : q.drainAll fs = p.drainAll (Bytes.skip left.length fs) := by
  induction fs generalizing done left q with
  | nil =>
    obtain ⟨rfl, -⟩ := List.append_eq_nil_iff.1 hfs.symm
    rw [List.append_nil] at h
    cases hq.symm.trans h
    rfl
  | cons data fs ih =>
    have hsettled : q.Settled := settled_of_events (events_of_advance_none hq)
    have resumes (more : Bytes) :
        (q.append more).advance = (p.append (done ++ more)).advance := by
      obtain ⟨r, hr, -, hall⟩ := h.midway hp
      cases hq.symm.trans hr
      exact hall more
    have hidle : p.Settled := settled_of_events (events_of_advance_none h)
    rw [List.flatten_cons] at hfs
    rw [Bytes.skip, drainAll_cons, drainAll_cons, hsettled.drain_eq, hidle.drain_eq]
    rcases List.append_eq_append_iff.1 hfs with ⟨tail, rfl, hrest⟩ | ⟨tail, rfl, rfl⟩
    · -- the whole fragment is absorbed
      rw [← List.append_assoc] at h
      obtain ⟨r, hr, -, -⟩ := h.midway hp
      have hdrop : data.drop (data ++ tail).length = [] := List.drop_eq_nil_of_le (by simp)
      have hcount : (data ++ tail).length - data.length = tail.length := by simp
      have hnil : (p.append []).events = ([], none, p) := by rw [append_nil, hidle.events_eq]
      have hnone : (q.append data).events = ([], none, r) :=
        events_of_advance_none ((resumes data).trans hr)
      rw [hdrop, hcount, hnil, hnone]
      simp only [Run.andThen, ih h hr hrest]
    · -- the rest of the absorbed octets is in the fragment, with octets after it
      have hdrop : (left ++ tail).drop left.length = tail := List.drop_left
      have hcount : left.length - (left ++ tail).length = 0 := by simp
      have hsame : (q.append (left ++ tail)).events = (p.append tail).events := by
        refine events_congr ((resumes _).trans ?_)
        rw [← List.append_assoc]
        exact h.append hp tail
      rw [hdrop, hcount, Bytes.skip_zero, hsame]

/-- Interim heads that a new parser takes in, each by itself, may be left out. However they and what
comes after them are cut into fragments, the same events are reported, the same error ends the run
if one does, and the parser is left in the same state, as when a new parser is given the fragments
without the octets of the heads. -/
theorem interim_heads_absorbed (limits : Limits) (method : String) {heads : List WrittenHead}
    (passed : ∀ h ∈ heads, isInterim h.start.status = true)
    (accepted : ∀ h ∈ heads, ((forMethod method limits).drain h.bytes).2.1 = none)
    {fs : List Bytes} (hfs : fs.flatten = heads.flatMap WrittenHead.bytes ++ m) :
    (Bytes.skip (heads.flatMap WrittenHead.bytes).length fs).flatten = m ∧
      (forMethod method limits).drainAll fs = (forMethod method limits).drainAll
        (Bytes.skip (heads.flatMap WrittenHead.bytes).length fs) := by
  have hsettled := settled_forMethod method limits
  have habsorbs : (forMethod method limits).Absorbs (heads.flatMap WrittenHead.bytes) := by
    clear hfs
    induction heads with
    | nil => exact absorbs_nil hsettled
    | cons h heads ih =>
      obtain ⟨hpassed, passed⟩ := List.forall_mem_cons.1 passed
      obtain ⟨haccepted, accepted⟩ := List.forall_mem_cons.1 accepted
      exact (absorbs_head h hpassed rfl rfl hsettled haccepted).trans (ih passed accepted) rfl
  refine ⟨by rw [Bytes.flatten_skip, hfs, List.drop_left], ?_⟩
  have hnone : ((forMethod method limits).append []).advance =
      (.ok none, forMethod method limits) := absorbs_nil hsettled
  exact drainAll_skip (List.nil_append _ ▸ habsorbs) rfl hnone hfs

/-- An interim head with a field that would frame a final response. -/
def earlyHints : WrittenHead where
  start := ⟨.http11, 103, "Early Hints"⟩
  startLine := StatusLine.line ⟨.http11, 103, "Early Hints"⟩
  lines := [FieldLine.plain ⟨"Content-Length", "9"⟩ (by decide) (by decide)]
  valid := ⟨by decide, by decide, by decide⟩
  written := .spaced

/-- It comes with a final head after it, cut inside its first line and before its last one. -/
def hintedFragments : List Bytes :=
  [Bytes.ofText "HTTP/1.1 103 Ear", Bytes.ofText "ly Hints\r\nContent-Length: 9\r\n",
    Bytes.ofText "\r\nHTTP/1.1 204 X\r\n\r\n"]

theorem interim_heads_absorbed_earlyHints :
    (Bytes.skip ([earlyHints].flatMap WrittenHead.bytes).length hintedFragments).flatten =
        Bytes.ofText "HTTP/1.1 204 X\r\n\r\n" ∧
      (forMethod "GET" .standard).drainAll hintedFragments = (forMethod "GET" .standard).drainAll
        (Bytes.skip ([earlyHints].flatMap WrittenHead.bytes).length hintedFragments) := by
  refine interim_heads_absorbed .standard "GET" ?_ ?_ (by decide +kernel)
  · exact List.forall_mem_singleton.2 (by decide)
  · exact List.forall_mem_singleton.2 (by decide +kernel)

end Parser
end HttpClient
