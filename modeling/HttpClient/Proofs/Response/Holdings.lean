import HttpClient.Proofs.Response.Decoded
set_option autoImplicit false

/-!
What the bounds keep a parser from holding. All that it has accepted is within them, and so is what
stands in its buffer while it waits: every phase that waits for the end of a line checks how much of
the line has come, and octets of a body are handed out at once.
-/

namespace HttpClient

namespace Framing

theorem Came.left_pos {l : Limits} {phase : Phase} {framing : Framing}
    {buffer octets payload : Bytes} {left : Nat}
    (h : framing.Came l phase buffer octets payload)
    (hp : phase = .counted left ∨ phase = .chunkData left) : 0 < left := by
  cases h with
  | plain unchunked leaves =>
    cases framing with
    | empty => rcases hp with rfl | rfl <;> simp [Leaves] at leaves
    | length n =>
      obtain ⟨left', -, rfl⟩ := leaves
      cases left' with
      | zero => simp [Parser.afterCounted] at hp
      | succ left' =>
        have hleft : left' + 1 = left := by simpa [Parser.afterCounted] using hp
        omega
    | chunked => exact absurd rfl unchunked
    | untilClose => rcases hp with rfl | rfl <;> simp [Leaves] at leaves
  | chunked part stands within =>
    cases part with
    | within chunks line done left' size names unbroken total short =>
      have hphase : phase = .chunkData left' := stands
      have hleft : left' = left := by simpa [hphase] using hp
      omega
    | between chunks => rcases stands with rfl | ⟨rfl, -⟩ <;> simp at hp
    | _ =>
      cases stands
      simp at hp

end Framing

namespace Parser

variable {p q r : Parser} {data more : Bytes} {es ds : List Event} {phase : Phase}

theorem Placed.left_pos (h : p.Placed data es q) {left : Nat}
    (hp : q.phase = .counted left ∨ q.phase = .chunkData left) : 0 < left := by
  obtain ⟨taken, -, position⟩ := h.position
  cases position with
  | body heads admits bodiless pieces came => exact came.left_pos hp
  | statusLine interim passed awaits => simp [awaits] at hp
  | fieldLines interim passed head fits awaits => simp [awaits] at hp
  | ended heads admits bodiless pieces came ends => simp [ends] at hp

theorem length_of_unfinished (hp : p.phase.readsLine = true) (hm : p.move = .wait phase)
    (hb : 0 < p.limits.headBytes) : p.buffer.length ≤ p.limits.headBytes ∨
      ∀ n, p.limits.chunkLine = some n → p.buffer.length ≤ n := by
  have hs := splitLine_of_wait hp hm
  have hnone : p.pendingError = none := by
    rw [move_of_unfinished hp hs] at hm
    cases he : p.pendingError with
    | none => rfl
    | some error => simp [he, pendingMove] at hm
  have within {used : Nat} (h : p.sectionError (used + p.buffer.length) = none) :
      p.buffer.length ≤ p.limits.headBytes := by
    have hfits : p.limits.headTooLarge (used + p.buffer.length) = false := by
      simpa [sectionError] using h
    have := Limits.headTooLarge_eq_false_iff.1 hfits (Nat.ne_of_gt hb)
    omega
  cases hq : p.phase with
  | statusLine =>
    simp only [pendingError, hq] at hnone
    exact .inl (@within 0 (by rwa [Nat.zero_add]))
  | fieldLines start fields used =>
    simp only [pendingError, hq] at hnone
    exact .inl (within hnone)
  | trailers fields used =>
    simp only [pendingError, hq] at hnone
    exact .inl (within hnone)
  | chunkSize =>
    simp only [pendingError, hq, Option.map_eq_none_iff] at hnone
    exact .inr (Limits.exceeded_eq_none_iff.1 hnone)
  | lastChunk =>
    simp only [pendingError, hq, Option.map_eq_none_iff] at hnone
    exact .inr (Limits.exceeded_eq_none_iff.1 hnone)
  | _ => simp [hq, Phase.readsLine] at hp

theorem nil_of_takeBody_wait {left : Nat} {later : Nat → Phase} {wait : Phase} (hl : 0 < left)
    (h : p.takeBody left later wait = .wait phase) : p.buffer = [] := by
  by_contra hb
  rw [takeBody_eq hl hb] at h
  cases h

theorem nil_of_body_wait (hp : p.phase.readsBody = true) (hm : p.move = .wait phase)
    (hleft : ∀ left, p.phase = .counted left ∨ p.phase = .chunkData left → 0 < left) :
    p.buffer = [] := by
  cases hq : p.phase with
  | counted left =>
    exact nil_of_takeBody_wait (hleft left (.inl hq)) ((move_counted p left hq).symm.trans hm)
  | chunkData left =>
    exact nil_of_takeBody_wait (hleft left (.inr hq)) ((move_chunkData p left hq).symm.trans hm)
  | untilClose =>
    by_contra hb
    exact hb (nil_of_takeBody_wait (List.length_pos_iff.2 hb)
      ((move_untilClose p hq).symm.trans hm))
  | _ => simp [hq, Phase.readsBody] at hp

theorem length_of_chunkEnd_wait (hp : p.phase = .chunkEnd) (hm : p.move = .wait phase) :
    p.buffer.length ≤ 1 := by
  simp only [move, hp, moveChunkEnd] at hm
  split at hm
  next hb => simp [hb]
  next hb => simp [hb]
  next => split at hm <;> cases hm

/-- Unless the message is over, a parser that waits holds no more than the bounds allow a line to
have, or one octet of the ending of a chunk. -/
theorem held_of_wait (hm : p.move = .wait phase) (hopen : phase.state ≠ .complete)
    (hb : 0 < p.limits.headBytes)
    (hleft : ∀ left, p.phase = .counted left ∨ p.phase = .chunkData left → 0 < left) :
    (∀ n, p.limits.chunkLine = some n →
      p.buffer.length ≤ max p.limits.headBytes (max n 1)) ∧
    (phase.readsBody = true → p.buffer = []) := by
  by_cases hr : p.phase.readsLine = true
  · refine ⟨fun n hn => ?_, fun hbody => ?_⟩
    · rcases length_of_unfinished hr hm hb with hlength | hlength
      · exact Nat.le_trans hlength (Nat.le_max_left ..)
      · exact Nat.le_trans (hlength n hn) (by omega)
    · rcases move_wait_cases hm with rfl | ⟨-, rfl, -⟩
      · cases hq : p.phase <;> simp [hq, Phase.readsLine, Phase.readsBody] at hr hbody
      · cases hbody
  have hsame : phase = p.phase := (move_wait_cases hm).resolve_right fun hlast =>
    hr (by rw [hlast.1]; rfl)
  by_cases hbody : p.phase.readsBody = true
  · have hnil := nil_of_body_wait hbody hm hleft
    exact ⟨fun n _ => by simp [hnil], fun _ => hnil⟩
  · refine ⟨fun n _ => ?_, fun h => absurd (hsame ▸ h) hbody⟩
    cases hq : p.phase with
    | chunkEnd =>
      have := length_of_chunkEnd_wait hq hm
      omega
    | complete trailers =>
      rw [hsame, hq] at hopen
      exact absurd rfl hopen
    | failed => simp [move, hq] at hm
    | _ => simp [hq, Phase.readsLine, Phase.readsBody] at hr hbody

theorem Placed.held (h : p.Placed data es q) (hb : 0 < p.limits.headBytes)
    (feed : q.feed more = (.ok none, r)) (hopen : r.state ≠ .complete) :
    (∀ n, p.limits.chunkLine = some n →
      r.buffer.length ≤ max p.limits.headBytes (max n 1)) ∧
    (r.phase.readsBody = true → r.buffer = []) := by
  unfold Parser.feed at feed
  split at feed
  · cases feed
  obtain ⟨s, hs, hm, hr⟩ := leads_of_advance_none feed
  have placed := (h.append more).leads hs
  have hheld := held_of_wait hm hopen (placed.limits ▸ hb) fun left => placed.left_pos
  have hbuffer : r.buffer = s.buffer := by rw [hr]
  rwa [hbuffer, ← placed.limits]

/-- What was accepted of these octets, up to what is left, is within the bounds: the head, the size
lines of a chunked body as far as it has come, and the trailers. -/
structure Bounded (p : Parser) (data left : Bytes) (es : List Event) : Prop where
  head : ∀ head bodiless, .head head bodiless ∈ es → ∃ (heads : WrittenHeads) (later : Bytes),
    data = heads.bytes ++ later ∧ heads.final.head = head ∧
      heads.final.bytes.length ≤ p.limits.headBytes ∧
      ∀ n, p.limits.fieldCount = some n → head.fields.count ≤ n
  sizes : ∀ head bodiless, .head head bodiless ∈ es →
    Framing.resolve head.fields (p.noBody head.start.status) = .ok .chunked →
    ∃ (heads : WrittenHeads) (part : ChunkedPart), data = heads.bytes ++ (part.octets ++ left) ∧
      heads.final.head = head ∧
      ∀ line ∈ part.sizeLines, ∀ n, p.limits.chunkLine = some n → line.length ≤ n
  trailers : ∀ trailers, .complete trailers ∈ es → trailers = .empty ∨
    ∃ (heads : WrittenHeads) (body : ChunkedBody), data = heads.bytes ++ (body.bytes ++ left) ∧
      body.fields = trailers ∧
      (body.trailers.flatMap FieldLine.bytes).length ≤ p.limits.headBytes ∧
      ∀ n, p.limits.fieldCount = some n → trailers.count ≤ n

theorem empty_of_came {l : Limits} {framing : Framing} {trailers : Fields}
    {buffer octets payload : Bytes} (unchunked : framing ≠ .chunked)
    (h : framing.Came l (.complete (some trailers)) buffer octets payload) : trailers = .empty := by
  cases h with
  | plain _ leaves =>
    cases framing with
    | empty => simpa [Framing.Leaves] using leaves.2
    | length n =>
      obtain ⟨left, -, hleft⟩ := leaves
      cases left <;> simp_all [afterCounted]
    | chunked => exact absurd rfl unchunked
    | untilClose => simpa [Framing.Leaves] using leaves
  | chunked => exact absurd rfl unchunked

theorem Admits.length_head {heads : WrittenHeads} {framing : Framing} (h : p.Admits heads framing)
    (hb : 0 < p.limits.headBytes) : heads.final.bytes.length ≤ p.limits.headBytes ∧
      ∀ n, p.limits.fieldCount = some n → heads.final.head.fields.count ≤ n :=
  ⟨h.fits.octets (Nat.ne_of_gt hb), fun n hn =>
    Nat.le_trans (Nat.le_of_eq heads.final.count_fields) (h.fits.fields n hn)⟩

theorem exists_part {l : Limits} {buffer octets payload : Bytes}
    (h : Framing.Came l phase buffer .chunked octets payload) :
    ∃ part : ChunkedPart, octets = part.octets ∧ part.Within l := by
  cases h with
  | plain unchunked => exact absurd rfl unchunked
  | chunked part stands within => exact ⟨part, rfl, within⟩

theorem bounded_of_came {heads : WrittenHeads} {framing : Framing}
    {octets payload buffer left : Bytes} (admits : p.Admits heads framing)
    (came : framing.Came p.limits phase buffer octets payload) (hb : 0 < p.limits.headBytes)
    (heads_eq : ∀ head expected, .head head expected ∈ es → head = heads.final.head)
    (trailers : ∀ trailers, .complete trailers ∈ es → trailers = .empty ∨
      ∃ body : ChunkedBody, octets = body.bytes ∧ body.fields = trailers ∧
        (ChunkedPart.whole body).Within p.limits) :
    p.Bounded (heads.bytes ++ octets ++ left) left es where
  head head expected hm := by
    obtain rfl := heads_eq head expected hm
    exact ⟨heads, octets ++ left, List.append_assoc .., rfl, admits.length_head hb⟩
  sizes head expected hm framed := by
    obtain rfl := heads_eq head expected hm
    cases admits.framed.symm.trans framed
    obtain ⟨part, rfl, within⟩ := exists_part came
    exact ⟨heads, part, List.append_assoc .., rfl, within.sizes⟩
  trailers fields hm := by
    refine (trailers fields hm).imp_right ?_
    rintro ⟨body, rfl, rfl, within⟩
    refine ⟨heads, body, List.append_assoc .., rfl, within.trailers.octets (Nat.ne_of_gt hb), ?_⟩
    exact fun n hn => Nat.le_trans (Nat.le_of_eq body.count_fields) (within.trailers.fields n hn)

theorem Placed.bounded (h : p.Placed data es q) (hb : 0 < p.limits.headBytes) :
    p.Bounded data q.buffer es := by
  obtain ⟨taken, rfl, position⟩ := h.position
  cases position with
  | statusLine => exact ⟨by simp, by simp, by simp⟩
  | fieldLines => exact ⟨by simp, by simp, by simp⟩
  | body heads admits bodiless pieces came =>
    exact bounded_of_came admits came hb (by simp) (by simp)
  | @ended heads framing admits bodiless octets left pieces trailers came ends =>
    refine bounded_of_came admits came hb (by simp) fun fields hm => ?_
    obtain rfl : fields = trailers := by simpa using hm
    by_cases hchunked : framing = .chunked
    · subst hchunked
      obtain ⟨body, hoctets, -, htrailers, within⟩ := body_of_came came
      exact .inr ⟨body, hoctets, htrailers.symm, within⟩
    · exact .inl (empty_of_came hchunked came)

/-- Whatever a new parser with a bound on heads is fed, in whatever pieces, what it accepts stays
within the bounds, also what it accepts in a feed that fails later: the head with its line endings,
the number of its fields, every size line, the trailer lines and their number. And when it has
reported all that it can, before the message is over, it holds at most as much as the largest of the
bounds on lines, and nothing at all while it awaits octets of a body. -/
theorem holds_within_limits (limits : Limits) (method : String) (bounded : 0 < limits.headBytes)
    (reports : (forMethod method limits).Reports data es q) :
    (∀ (more : Bytes) (ds : List Event) (r : Parser), (q.append more).Leads ds r →
      (forMethod method limits).Bounded (data ++ more) r.buffer (es ++ ds)) ∧
    ∀ (more : Bytes) (r : Parser), q.feed more = (.ok none, r) → r.state ≠ .complete →
      (∀ n, limits.chunkLine = some n →
        r.buffer.length ≤ max limits.headBytes (max n 1)) ∧
      (r.phase.readsBody = true → r.buffer = []) := by
  have placed := reports.placed rfl rfl
  refine ⟨fun more ds r leads => ?_, fun more r feed hopen => placed.held bounded feed hopen⟩
  exact ((placed.append more).leads leads).bounded bounded

/-- A response that is cut off in the line of the last chunk. -/
def cutOff : Bytes :=
  Bytes.ofText "HTTP/1.1 200 OK\r\nTransfer-Encoding: chunked\r\n\r\n5\r\nhello\r\n0"

theorem holds_within_limits_cutOff :
    let q := ((forMethod "GET" .standard).drain cutOff).2.2
    let r := (q.feed (Bytes.ofText ";a")).2
    (forMethod "GET" .standard).Bounded (cutOff ++ []) q.buffer
        ([.head chunkedHead false, .chunk (Bytes.ofText "hello")] ++ []) ∧
      (∀ n, Limits.standard.chunkLine = some n → r.buffer.length ≤ max 8192 (max n 1)) ∧
      (r.phase.readsBody = true → r.buffer = []) := by
  intro q r
  have hd : (forMethod "GET" .standard).drain cutOff =
      ([.head chunkedHead false, .chunk (Bytes.ofText "hello")], none, q) := by decide +kernel
  have hf : q.feed (Bytes.ofText ";a") = (.ok none, r) := by decide +kernel
  have hopen : r.state ≠ .complete := by decide +kernel
  have hq : (q.append []).Leads [] q := by
    rw [q.append_nil]
    exact .refl q
  have hall := holds_within_limits .standard "GET" (by decide) (.of_drain hd)
  exact ⟨hall.1 [] [] q hq, hall.2 _ r hf hopen⟩

end Parser
end HttpClient
