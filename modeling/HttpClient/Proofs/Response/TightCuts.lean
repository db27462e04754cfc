import HttpClient.Proofs.Response.Fragments
set_option autoImplicit false

/-!
Whether a bound is exceeded may hang on the cuts. Of a line that has not ended the carriage return
is counted; of one that has ended it is not, if it is a chunk line or the empty line after the
trailers. So a line that just fits is refused when its ending is cut in two.
-/

namespace HttpClient

inductive Bound where
  | head
  | fieldCount
  | chunkLine
  deriving DecidableEq, Repr

def ParseError.bound : ParseError → Option Bound
  | .headTooLarge .. => some .head
  | .tooManyFields .. => some .fieldCount
  | .chunkLineTooLong .. => some .chunkLine
  | .malformed _ | .stopped => none

theorem ParseError.bound_eq_none_iff (error : ParseError) :
    error.bound = none ↔ error.isLimit = false := by
  cases error <;> simp [bound, isLimit]

namespace Parser

def Run.bound (r : Run) : Option Bound := r.2.1.bind ParseError.bound

theorem Run.bound_eq_none_iff (r : Run) : r.bound = none ↔ r.overBound = false := by
  obtain ⟨es, error | error, q⟩ := r
  · simp [bound, overBound]
  · simpa [bound, overBound] using error.bound_eq_none_iff

theorem Run.Same.bound {r s : Run} (h : r.Same s) : r.bound = s.bound := by
  rw [Run.bound, Run.bound, h.2]

/-- The bound that an unfinished line of this many octets exceeds. -/
def tooLong (p : Parser) (size : Nat) : Option Bound :=
  match p.phase with
  | .statusLine => if p.limits.headTooLarge size then some .head else none
  | .fieldLines _ _ used | .trailers _ used =>
    if p.limits.headTooLarge (used + size) then some .head else none
  | .chunkSize | .lastChunk => (Limits.exceeded p.limits.chunkLine size).map fun _ => .chunkLine
  | _ => none

/-- The bound that the awaited line keeps to, though not with the octet after it, and not needing
to. -/
def full (p : Parser) : Option Bound :=
  match p.phase with
  | .chunkSize | .lastChunk =>
    if p.limits.chunkLine = some p.buffer.length then some .chunkLine else none
  | .trailers _ used =>
    if p.buffer = [] ∧ used = p.limits.headBytes ∧ used ≠ 0 then some .head else none
  | _ => none

def TrailersFit (p : Parser) : Prop :=
  ∀ fields used, p.phase = .trailers fields used → p.limits.headTooLarge used = false

@[simp] theorem tooLong_withBuffer (p : Parser) (b : Bytes) (size : Nat) :
    (p.withBuffer b).tooLong size = p.tooLong size := rfl

theorem exceeded_eq_some_iff {bound : Option Nat} {count limit : Nat} :
    Limits.exceeded bound count = some limit ↔ bound = some limit ∧ limit < count := by
  simp [Limits.exceeded, Option.filter_eq_some_iff]

theorem headTooLarge_iff {l : Limits} {size : Nat} :
    l.headTooLarge size = true ↔ l.headBytes ≠ 0 ∧ l.headBytes < size := by
  simp [Limits.headTooLarge]

theorem section_eq_some_iff {l : Limits} {size : Nat} {k : Bound} :
    (if l.headTooLarge size then some .head else none) = some k ↔
      k = .head ∧ l.headBytes ≠ 0 ∧ l.headBytes < size := by
  rw [← headTooLarge_iff]
  by_cases h : l.headTooLarge size = true <;> simp [h, eq_comm]

theorem chunkLine_eq_some_iff {bound : Option Nat} {size : Nat} {k : Bound} :
    ((Limits.exceeded bound size).map fun _ => .chunkLine) = some k ↔
      k = .chunkLine ∧ ∃ limit, bound = some limit ∧ limit < size := by
  simp only [Option.map_eq_some_iff, exceeded_eq_some_iff]
  constructor
  · rintro ⟨limit, hl, rfl⟩
    exact ⟨rfl, limit, hl⟩
  · rintro ⟨rfl, limit, hl⟩
    exact ⟨limit, hl, rfl⟩

theorem bound_pendingError (p : Parser) :
    p.pendingError.bind ParseError.bound = p.tooLong p.buffer.length := by
  unfold pendingError tooLong sectionError
  cases p.phase with
  | statusLine => dsimp only; split <;> rfl
  | fieldLines start fields used => dsimp only; split <;> rfl
  | trailers fields used => dsimp only; split <;> rfl
  | chunkSize | lastChunk =>
    cases Limits.exceeded p.limits.chunkLine p.buffer.length <;> simp [ParseError.bound]
  | _ => rfl

theorem tooLong_mono {p : Parser} {m n : Nat} {k : Bound} (h : p.tooLong m = some k) (hmn : m ≤ n) :
    p.tooLong n = some k := by
  unfold tooLong at h ⊢
  cases hq : p.phase with
  | statusLine =>
    simp only [hq, section_eq_some_iff] at h ⊢
    exact ⟨h.1, h.2.1, by omega⟩
  | fieldLines start fields used =>
    simp only [hq, section_eq_some_iff] at h ⊢
    exact ⟨h.1, h.2.1, by omega⟩
  | trailers fields used =>
    simp only [hq, section_eq_some_iff] at h ⊢
    exact ⟨h.1, h.2.1, by omega⟩
  | chunkSize | lastChunk =>
    simp only [hq, chunkLine_eq_some_iff] at h ⊢
    obtain ⟨hk, limit, hl, hlt⟩ := h
    exact ⟨hk, limit, hl, by omega⟩
  | _ => simp [hq] at h

theorem fail_or_full {p : Parser} {line rest : Bytes} {k : Bound} (hfit : p.TrailersFit)
    (hs : Bytes.splitLine p.buffer = some (line, rest)) (h : p.tooLong (line.length + 1) = some k) :
    (∃ error, p.move = .fail error ∧ error.bound = some k) ∨
      (p.withBuffer line).full = some k ∧ p.tooLong line.length = none := by
  cases hq : p.phase with
  | statusLine =>
    simp only [tooLong, hq, section_eq_some_iff] at h
    obtain ⟨rfl, hz, hlt⟩ := h
    have hl : p.limits.headTooLarge (line.length + 2) = true := headTooLarge_iff.2 ⟨hz, by omega⟩
    exact .inl ⟨_, by simp [move, hq, moveStatusLine, hs, hl, headTooLarge]; rfl, rfl⟩
  | fieldLines start fields used =>
    simp only [tooLong, hq, section_eq_some_iff] at h
    obtain ⟨rfl, hz, hlt⟩ := h
    have hl : p.limits.headTooLarge (used + line.length + 2) = true :=
      headTooLarge_iff.2 ⟨hz, by omega⟩
    exact .inl ⟨_, by simp [move, hq, moveFieldLines, hs, hl, headTooLarge]; rfl, rfl⟩
  | chunkSize | lastChunk =>
    simp only [tooLong, hq, chunkLine_eq_some_iff] at h
    obtain ⟨rfl, limit, hc, hlt⟩ := h
    by_cases hlong : limit < line.length
    · have hl := exceeded_eq_some_iff.2 ⟨hc, hlong⟩
      exact .inl ⟨_, by simp [move, hq, moveChunkLine, hs, hl]; rfl, rfl⟩
    · right
      have he : limit = line.length := by omega
      simp [full, tooLong, hq, hc, he, Limits.exceeded]
  | trailers fields used =>
    simp only [tooLong, hq, section_eq_some_iff] at h
    obtain ⟨rfl, hz, hlt⟩ := h
    by_cases he : line = []
    · right
      have hused := hfit fields used hq
      have he' : used = p.limits.headBytes := by
        rw [Bool.eq_false_iff, ne_eq, headTooLarge_iff] at hused
        simp only [he, List.length_nil] at hlt
        omega
      rw [← he'] at hz
      simp [full, tooLong, hq, he, ← he', hused, hz]
    · have hl : p.limits.headTooLarge (used + line.length + 2) = true :=
        headTooLarge_iff.2 ⟨hz, by omega⟩
      exact .inl ⟨_, by simp [move, hq, moveTrailers, hs, he, hl, headTooLarge]; rfl, rfl⟩
  | _ => simp [tooLong, hq] at h

section More

variable {p q : Parser} {k : Bound}

theorem trailersFit_of_next {phase : Phase} {rest : Bytes} (h : p.move = .next phase rest) :
    TrailersFit { p with phase := phase, buffer := rest } := by
  intro fields used hp
  have hz : p.limits.headTooLarge 0 = false := by simp [Limits.headTooLarge]
  dsimp only at hp ⊢
  cases hq : p.phase with
  | chunkSize =>
    simp only [move, hq] at h
    obtain ⟨size, rfl⟩ := next_of_moveChunkLine h
    cases size <;> cases hp
    exact hz
  | lastChunk =>
    simp only [move, hq] at h
    obtain ⟨size, rfl⟩ := next_of_moveChunkLine h
    cases hp
    exact hz
  | trailers fields used =>
    simp only [move, hq, moveTrailers, headTooLarge] at h
    repeat' split at h
    all_goals cases h
    · cases hp
    · cases hp
      simpa using ‹¬p.limits.headTooLarge _ = true›
  | counted left => simp only [move, hq, takeBody_ne_next] at h
  | chunkData left => simp only [move, hq, takeBody_ne_next] at h
  | untilClose => simp only [move, hq, takeBody_ne_next] at h
  | complete trailers => cases trailers <;> simp [move, hq] at h
  | _ =>
    simp only [move, hq, moveStatusLine, moveFieldLines, endHead, moveChunkEnd, headTooLarge] at h
    repeat' split at h
    all_goals cases h
    all_goals cases hp

theorem trailersFit_of_event {e : Event} {phase : Phase} {rest : Bytes}
    (h : p.move = .event e phase rest) : TrailersFit (p.record e phase rest) := by
  intro fields used hp
  have hf := followsEvent_of_event h
  rw [record_phase] at hp
  rw [hp] at hf
  cases hf

theorem trailersFit_of_leads {es : List Event} (h : Leads p es q) (hp : p.TrailersFit) :
    q.TrailersFit :=
  h.invariant TrailersFit (fun _ _ _ _ => trailersFit_of_next)
    (fun _ _ _ _ _ => trailersFit_of_event) hp

theorem splitLine_of_settled (hs : p.Settled) (hr : p.phase.readsLine = true) :
    Bytes.splitLine p.buffer = none := by
  cases h : Bytes.splitLine p.buffer with
  | none => rfl
  | some result => exact absurd hs (move_ne_wait_of_line hr h)

theorem readsLine_of_full (h : p.full = some k) : p.phase.readsLine = true := by
  unfold full at h
  split at h <;> simp_all [Phase.readsLine]

theorem tooLong_of_full (h : p.full = some k) : p.tooLong (p.buffer.length + 1) = some k := by
  unfold full tooLong at *
  cases hq : p.phase with
  | chunkSize | lastChunk =>
    simp only [hq] at h ⊢
    split at h <;> cases h
    next hc => exact chunkLine_eq_some_iff.2 ⟨rfl, _, hc, by omega⟩
  | trailers fields used =>
    simp only [hq] at h ⊢
    split at h <;> cases h
    next hc => exact section_eq_some_iff.2 ⟨rfl, by omega, by omega⟩
  | _ => simp [hq] at h

theorem bound_events_of_tooLong (hr : p.phase.readsLine = true)
    (hn : Bytes.splitLine p.buffer = none) (h : p.tooLong p.buffer.length = some k) :
    Run.bound p.events = some k := by
  have hm := move_of_unfinished hr hn
  rw [← bound_pendingError] at h
  cases he : p.pendingError with
  | none => simp [he] at h
  | some error =>
    rw [he] at hm h
    rw [events_of_fail hm]
    exact h

theorem bound_of_full (hs : p.Settled) (h : p.full = some k) :
    Run.bound (p.append [Bytes.cr]).events = some k := by
  have hr := readsLine_of_full h
  refine bound_events_of_tooLong hr (Bytes.splitLine_concat_cr (splitLine_of_settled hs hr)) ?_
  have := tooLong_of_full h
  simpa [append] using this

theorem bound_events_of_unfinished (hfit : p.TrailersFit) (hr : p.phase.readsLine = true)
    (hn : Bytes.splitLine p.buffer = none) (h : p.tooLong p.buffer.length = some k) (more : Bytes) :
    Run.bound (p.append more).events = some k ∨
      ∃ line rest, p.buffer = line ++ [Bytes.cr] ∧ more = Bytes.lf :: rest ∧
        (p.withBuffer line).full = some k ∧ p.tooLong line.length = none := by
  cases hs : Bytes.splitLine (p.buffer ++ more) with
  | none =>
    refine .inl (bound_events_of_tooLong hr hs ?_)
    rw [append, tooLong_withBuffer]
    exact tooLong_mono h (by simp)
  | some result =>
    obtain ⟨line, rest⟩ := result
    have hfit' : (p.append more).TrailersFit := hfit
    have hcut := Bytes.of_splitLine_append hn hs
    have hlong : p.tooLong (line.length + 1) = some k := by
      rcases hcut with ⟨tail, rfl⟩ | ⟨hb, -⟩
      · exact tooLong_mono h (by simp; omega)
      · simpa [hb] using h
    rcases fail_or_full hfit' hs hlong with ⟨error, hm, he⟩ | ⟨hfull, hshort⟩
    · left
      rw [events_of_fail hm]
      exact he
    · right
      have hshort : p.tooLong line.length = none := hshort
      rcases hcut with ⟨tail, rfl⟩ | ⟨hb, hmore⟩
      · rw [tooLong_mono h (by simp)] at hshort
        cases hshort
      · exact ⟨line, rest, hb, hmore, hfull, hshort⟩

theorem full_of_waited {phase : Phase} (h : p.move = .wait phase) (hk : p.full = some k) :
    Parser.full { p with phase := phase } = some k := by
  rcases move_wait_cases h with rfl | ⟨hq, rfl, -⟩
  · exact hk
  · simpa only [full, hq] using hk

theorem events_of_full (hn : Bytes.splitLine p.buffer = none)
    (hshort : p.tooLong p.buffer.length = none) (h : p.full = some k) :
    ∃ q, p.events = ([], none, q) ∧ q.full = some k := by
  have hm := move_of_unfinished (readsLine_of_full h) hn
  have he : p.pendingError = none := by
    rw [← bound_pendingError] at hshort
    cases hp : p.pendingError with
    | none => rfl
    | some error =>
      have hl := isLimit_of_pendingError hp
      rw [hp, Option.bind_some, ParseError.bound_eq_none_iff, hl] at hshort
      cases hshort
  rw [he] at hm
  exact ⟨_, events_of_wait hm, full_of_waited hm h⟩

/-- A bound that was exceeded is exceeded also when more comes, unless the last octet was the
carriage return after a full line. -/
theorem bound_events_append (hfit : p.TrailersFit) (h : Run.bound p.events = some k)
    (more : Bytes) : Run.bound (p.append more).events = some k ∨
      ∃ b es q, p.buffer = b ++ [Bytes.cr] ∧ more.head? = some Bytes.lf ∧
        Run.Same (p.withBuffer b).events (es, none, q) ∧ q.full = some k := by
  obtain ⟨es, q, hl, hq⟩ := exists_leads_stop p
  have hp := hl.events_eq
  have hmore := hl.append more
  rcases hq with ⟨phase, hq⟩ | ⟨error, hq⟩
  · rw [hp, events_of_wait hq] at h
    cases h
  have hk : error.bound = some k := by
    rwa [hp, events_of_fail hq] at h
  rcases move_fail_cases hq with hall | ⟨hr, hn, he⟩
  · left
    rw [hmore.bound, Parser.append, events_of_fail (hall more)]
    exact hk
  have hlong : q.tooLong q.buffer.length = some k := by
    rw [← bound_pendingError, he]
    exact hk
  rcases bound_events_of_unfinished (trailersFit_of_leads hl hfit) hr hn hlong more with
    hb | ⟨line, rest, hb, rfl, hfull, hshort⟩
  · left
    rw [hmore.bound]
    exact hb
  · right
    obtain ⟨consumed, hc, hes⟩ := hl.withBuffer
    have hline : Bytes.splitLine line = none := by
      cases hs : Bytes.splitLine line with
      | none => rfl
      | some result =>
        obtain ⟨l, r⟩ := result
        have := Bytes.splitLine_append hs [Bytes.cr]
        rw [← hb, hn] at this
        cases this
    obtain ⟨r, hr, hfull⟩ := events_of_full (p := q.withBuffer line) hline hshort hfull
    refine ⟨consumed ++ line, es, r, by rw [hc, hb, List.append_assoc], rfl, ?_, hfull⟩
    have := hes line
    rw [hr] at this
    simpa [Run.after] using this

end More

section Cuts

variable {p : Parser} {k : Bound}

/-- The bound that is exceeded only because of a cut between `a` and `c`: the cut is inside the
ending of a line that is full. -/
def tightBound (p : Parser) (a c : Bytes) : Option Bound :=
  if a.getLast? = some Bytes.cr ∧ c.head? = some Bytes.lf ∧ (p.drain a.dropLast).2.1 = none then
    (p.drain a.dropLast).2.2.full
  else none

def cuts : List Bytes → List (Bytes × Bytes)
  | [] => []
  | data :: more => (data, more.flatten) :: (cuts more).map fun (a, c) => (data ++ a, c)

theorem append_of_mem_cuts {fs : List Bytes} {a c : Bytes} (h : (a, c) ∈ cuts fs) :
    a ++ c = fs.flatten := by
  induction fs generalizing a with
  | nil => simp [cuts] at h
  | cons data fs ih =>
    simp only [cuts, List.mem_cons, Prod.mk.injEq, List.mem_map] at h
    rcases h with ⟨rfl, rfl⟩ | ⟨⟨b, c'⟩, hb, rfl, rfl⟩
    · rfl
    · rw [List.append_assoc, ih hb, List.flatten_cons]

theorem mem_cuts_flatten {fs : List Bytes} (h : fs ≠ []) : (fs.flatten, []) ∈ cuts fs := by
  induction fs with
  | nil => exact absurd rfl h
  | cons data fs ih =>
    cases fs with
    | nil => simp [cuts]
    | cons data' fs =>
      have := ih (by simp)
      exact List.mem_cons_of_mem _ (List.mem_map.2 ⟨_, this, rfl⟩)

/-- A run over fragments exceeds the bound that the first place does at which one is exceeded. -/
theorem bound_drainAll (hs : p.Settled) (fs : List Bytes) :
    Run.bound (p.drainAll fs) = (cuts fs).findSome? fun cut => Run.bound (p.drain cut.1) := by
  induction fs generalizing p with
  | nil => rfl
  | cons data fs ih =>
    rw [drainAll_cons, cuts, List.findSome?_cons, List.findSome?_map]
    rcases he : p.drain data with ⟨es, error | error, q⟩
    · have hover : Run.overBound (p.drain data) = false := by simp [he, Run.overBound]
      have hlater : ∀ a, Run.bound (p.drain (data ++ a)) = Run.bound (q.drain a) := by
        intro a
        rw [(drain_append hs hover a).bound, he]
        rfl
      simp only [Function.comp_def, hlater]
      exact ih (settled_of_drain hs he)
    · cases hk : error.bound with
      | some k => simp [Run.andThen, Run.bound, hk]
      | none =>
        -- An error that is none of a bound stays whatever follows, so no later place counts.
        have hnone : Run.bound (p.drain data) = none := by simp [he, Run.bound, hk]
        have hlater : ∀ a, Run.bound (p.drain (data ++ a)) = none := by
          intro a
          rw [(drain_append hs ((Run.bound_eq_none_iff _).1 hnone) a).bound, he]
          exact hk
        rw [he] at hnone
        simp only [Function.comp_def, hlater, hnone, Run.andThen]
        exact (List.findSome?_eq_none_iff.2 fun _ _ => rfl).symm

theorem bound_of_tightBound (hs : p.Settled) {a c : Bytes} (h : p.tightBound a c = some k) :
    Run.bound (p.drain a) = some k := by
  unfold tightBound at h
  split at h
  · next hcut =>
    obtain ⟨hlast, -, hok⟩ := hcut
    obtain ⟨b, rfl⟩ := List.getLast?_eq_some_iff.1 hlast
    rw [List.dropLast_concat] at h hok
    rcases he : p.drain b with ⟨es, error | error, q⟩
    · have hq := settled_of_drain hs he
      have hover : Run.overBound (p.drain b) = false := by simp [he, Run.overBound]
      rw [he] at h
      rw [(drain_append hs hover _).bound, he]
      simp only [Run.andThen, hq.drain_eq]
      exact bound_of_full hq h
    · simp [he] at hok
  · cases h

theorem bound_drain_append (hs : p.Settled) (hfit : p.TrailersFit) {a : Bytes}
    (h : Run.bound (p.drain a) = some k) (c : Bytes) :
    Run.bound (p.drain (a ++ c)) = some k ∨ p.tightBound a c = some k := by
  rcases List.eq_nil_or_concat a with rfl | ⟨b, x, ha⟩
  · rw [hs.drain_eq, append_nil, hs.events_eq] at h
    cases h
  rw [List.concat_eq_append] at ha
  subst ha
  rw [hs.drain_eq] at h ⊢
  rw [← append_append]
  rcases bound_events_append (p := p.append (b ++ [x])) hfit h c with
    hb | ⟨b', es, q, hb, hc, hes, hfull⟩
  · exact .inl hb
  · right
    have hb : p.buffer ++ b ++ [x] = b' ++ [Bytes.cr] := by simpa [append] using hb
    obtain ⟨rfl, hx⟩ := List.append_inj' hb rfl
    cases hx
    have hd : Run.Same (p.drain b) (es, none, q) := by
      rw [hs.drain_eq]
      exact hes
    rw [tightBound, List.dropLast_concat, if_pos ⟨by simp, hc, by rw [hd.2]⟩, hd.2]
    exact hfull

/-- All ways of cutting octets exceed the same bound, or none, just if every tight place among them
is followed by octets over the bound that the place exceeds. -/
theorem bounds_agree_iff (limits : Limits) (method : String) (data : Bytes) :
    (∀ fs gs : List Bytes, fs.flatten = data → gs.flatten = data →
      Run.bound ((forMethod method limits).drainAll fs) =
        Run.bound ((forMethod method limits).drainAll gs)) ↔
    ∀ a c k, a ++ c = data → (forMethod method limits).tightBound a c = some k →
      Run.bound ((forMethod method limits).drain data) = some k := by
  have hs := settled_forMethod method limits
  have hfit : (forMethod method limits).TrailersFit := by
    intro fields used h
    cases h
  generalize forMethod method limits = p at hs hfit
  have hwhole : Run.bound (p.drainAll [data]) = Run.bound (p.drain data) := by
    rw [bound_drainAll hs]
    simp [cuts]
  constructor
  · intro h a c k hac hk
    have hcut : Run.bound (p.drainAll [a, c]) = some k := by
      rw [bound_drainAll hs]
      simp [cuts, bound_of_tightBound hs hk]
    rw [← hwhole, ← hcut]
    exact h [data] [a, c] (by simp) (by simpa using hac)
  · intro h
    have hall : ∀ fs : List Bytes, fs.flatten = data →
        Run.bound (p.drainAll fs) = Run.bound (p.drain data) := by
      intro fs hf
      rw [bound_drainAll hs]
      cases hk : (cuts fs).findSome? fun cut => Run.bound (p.drain cut.1) with
      | some k =>
        obtain ⟨⟨a, c⟩, hmem, hk⟩ := List.exists_of_findSome?_eq_some hk
        have hac := (append_of_mem_cuts hmem).trans hf
        rcases bound_drain_append hs hfit hk c with hb | ht
        · rw [← hac, hb]
        · rw [h a c k hac ht]
      | none =>
        rw [List.findSome?_eq_none_iff] at hk
        by_cases hne : fs = []
        · subst hne
          rw [← hf, List.flatten_nil, hs.drain_eq, append_nil, hs.events_eq]
          rfl
        · rw [← hf, hk _ (mem_cuts_flatten hne)]
    intro fs gs hf hg
    rw [hall fs hf, hall gs hg]

end Cuts

/-- A chunk line of one octet, where one is allowed, is refused if its ending is cut in two. -/
theorem bounds_disagree : ¬ ∀ (limits : Limits) (method : String) (fs gs : List Bytes),
    fs.flatten = gs.flatten → Run.bound ((forMethod method limits).drainAll fs) =
      Run.bound ((forMethod method limits).drainAll gs) := by
  intro h
  have hcut := h { Limits.standard with chunkLine := some 1 } "GET"
    [Bytes.ofText "HTTP/1.1 200 OK\r\nTransfer-Encoding: chunked\r\n\r\n5\r",
      Bytes.ofText "\nhello\r\n0\r\n\r\n"]
    [Bytes.ofText "HTTP/1.1 200 OK\r\nTransfer-Encoding: chunked\r\n\r\n5\r\nhello\r\n0\r\n\r\n"]
    (by decide +kernel)
  revert hcut
  decide +kernel

example :
    let limits := { Limits.standard with headBytes := 47 }
    let response := Bytes.ofText "HTTP/1.1 200 OK\r\nTransfer-Encoding: chunked\r\n\r\n0\r\n" ++
      Bytes.ofText "X: aaaaaaaaaaaaaaaaaaaaaaaaaaaaaaaaaaaaaaaaaa\r\n"
    Run.bound ((forMethod "GET" limits).drainAll [response ++ [Bytes.cr], [Bytes.lf]]) =
        some .head ∧
      Run.bound ((forMethod "GET" limits).drainAll [response ++ Bytes.crlf]) = none := by
  decide +kernel

end Parser
end HttpClient
