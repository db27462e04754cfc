import HttpClient.Proofs.Response.Reports
import Mathlib.Data.List.Induction
set_option autoImplicit false

/-!
Calls on a new parser, in any number and order: octets come, the connection ends, and whether a body
is expected is said anew. Whatever the order, what is reported is a message or the beginning of one,
and after a failure there is nothing but failures.
-/

namespace HttpClient

/-- The events of one message: its head, chunks that all have octets, and its end. -/
inductive Event.Message : List Event → Prop where
  | intro (head : ResponseHead) (bodiless : Bool) (pieces : List Bytes) (trailers : Fields)
      (filled : ∀ piece ∈ pieces, piece ≠ []) (bare : bodiless = true → pieces = []) :
      Message (.head head bodiless :: (pieces.map .chunk ++ [.complete trailers]))

def Framing.Within (framing : Framing) (total : Nat) : Prop :=
  match framing with
  | .empty => total = 0
  | .length n => total ≤ n
  | .chunked | .untilClose => True

theorem Framing.empty_of_bodiless {h : Fields} {framing : Framing}
    (hr : resolve h true = .ok framing) : framing = .empty := by
  unfold resolve at hr
  cases hc : transferCoding h with
  | error cause => simp [hc, bind, Except.bind] at hr
  | ok coding =>
    cases hl : contentLength h with
    | error cause => simp [hc, hl, bind, Except.bind] at hr
    | ok length =>
      simp only [hc, hl, bind, Except.bind, pure, Except.pure, if_true] at hr
      cases hr
      rfl

namespace Parser

inductive Call where
  | feed (data : Bytes)
  | finish
  | expectNoBody (flag : Bool)
  deriving DecidableEq, Repr

structure Session where
  answers : List (Except ParseError (Option Event))
  parser : Parser

namespace Session

def call (s : Session) : Call → Session
  | .feed data => ⟨s.answers ++ [(s.parser.feed data).1], (s.parser.feed data).2⟩
  | .finish => ⟨s.answers, s.parser.finish⟩
  | .expectNoBody flag => ⟨s.answers, { s.parser with bodiless := flag }⟩

def ofCalls (p : Parser) (calls : List Call) : Session := calls.foldl call ⟨[], p⟩

theorem ofCalls_concat (p : Parser) (calls : List Call) (c : Call) :
    ofCalls p (calls ++ [c]) = (ofCalls p calls).call c := by
  simp [ofCalls, List.foldl_append]

def events (s : Session) : List Event :=
  s.answers.flatMap fun answer => match answer with
    | .ok e => e.toList
    | .error _ => []

def octets (s : Session) : Bytes := s.events.flatMap Event.octets

def Failed (s : Session) : Prop := ∃ error, .error error ∈ s.answers

end Session

section Progress

variable {p q : Parser} {es : List Event} {phase : Phase} {expects : Nat → Bool → Prop}

theorem Account.ne_failed (ha : Account expects es phase) : phase ≠ .failed := by
  rintro rfl
  cases ha with
  | head part => cases part
  | body expected framed filled leaves => cases part_of_leaves leaves

theorem bodyBytes_of_advance {answer : Except ParseError (Option Event)}
    (h : p.advance = (answer, q)) :
    q.bodyBytes = p.bodyBytes + ((reported answer).flatMap Event.octets).length := by
  fun_induction advance p with
  | case1 =>
    cases h
    rfl
  | case2 p phase rest hm ih => exact ih h
  | case3 p e phase rest hm =>
    cases h
    cases e <;> simp [record, reported, Event.octets]
  | case4 =>
    cases h
    rfl

theorem bodyBytes_of_feed {data : Bytes} {answer : Except ParseError (Option Event)}
    (h : p.feed data = (answer, q)) :
    q.bodyBytes = p.bodyBytes + ((reported answer).flatMap Event.octets).length := by
  unfold feed at h
  split at h
  · cases h
    rfl
  · have hcount := bodyBytes_of_advance h
    exact hcount

theorem bodyBytes_finish (p : Parser) : p.finish.bodyBytes = p.bodyBytes := by
  unfold finish
  split <;> rfl

theorem feed_of_ended (hq : q.phase = .complete none) (data : Bytes) :
    (q.feed data).1 = .ok none := by
  have hm : Parser.move { q with buffer := q.buffer ++ data } = .wait (.complete none) :=
    move_of_ended (p := { q with buffer := q.buffer ++ data }) (by rw [hq]; rfl)
  rw [feed, if_neg (by simp [hq]), advance]
  split <;> simp_all

theorem feed_of_failed (hq : q.phase = .failed) (data : Bytes) :
    q.feed data = (.error .stopped, q) := by
  rw [feed, if_pos hq]

theorem finish_of_failed (hq : q.phase = .failed) : q.finish = q := by
  simp [finish, hq]

end Progress

namespace Session

variable {p : Parser} {s : Session}

/-- The parser goes on with a message, or has failed at some point before its end. -/
inductive Sound (s : Session) : Prop where
  | going (account : Account (fun _ _ => True) s.events s.parser.phase) (fine : ¬s.Failed)
  | failed {phase : Phase} (account : Account (fun _ _ => True) s.events phase)
      (short : phase.part ≠ .ended) (failed : s.Failed) (stopped : s.parser.phase = .failed)

theorem events_feed (s : Session) (data : Bytes) :
    (s.call (.feed data)).events = s.events ++ reported (s.parser.feed data).1 := by
  rw [events, call, List.flatMap_append, List.flatMap_singleton]
  rfl

theorem failed_feed_iff (s : Session) (data : Bytes) :
    (s.call (.feed data)).Failed ↔ s.Failed ∨ ∃ error, (s.parser.feed data).1 = .error error := by
  simp only [Failed, call, List.mem_append, List.mem_singleton, exists_or, eq_comm]

theorem sound_feed (h : s.Sound) (data : Bytes) : (s.call (.feed data)).Sound := by
  have hevents := s.events_feed data
  have hfailed := s.failed_feed_iff data
  cases h with
  | going account fine =>
    have hfeed : s.parser.feed data =
        Parser.advance { s.parser with buffer := s.parser.buffer ++ data } := by
      rw [feed, if_neg account.ne_failed]
    obtain ⟨e, he, ha⟩ | ⟨⟨error, he⟩, hphase, phase, short, ha⟩ :=
      account_of_advance (p := { s.parser with buffer := s.parser.buffer ++ data }) rfl account
        fun _ => trivial
    · rw [← hfeed] at he ha
      rw [he] at hevents hfailed
      exact .going (hevents ▸ ha) (by simpa [fine] using hfailed)
    · rw [← hfeed] at he hphase
      rw [he] at hevents hfailed
      rw [reported, List.append_nil] at hevents
      exact .failed (hevents ▸ ha) short (hfailed.2 (.inr ⟨error, rfl⟩)) hphase
  | @failed phase account short failed stopped =>
    have hstill : (s.call (.feed data)).parser = s.parser := by
      rw [call, feed_of_failed stopped]
    rw [feed_of_failed stopped, reported, List.append_nil] at hevents
    exact .failed (hevents ▸ account) short (hfailed.2 (.inl failed)) (hstill ▸ stopped)

theorem sound_call (h : s.Sound) (c : Call) : (s.call c).Sound := by
  cases c with
  | feed data => exact sound_feed h data
  | expectNoBody flag =>
    cases h with
    | going account fine => exact .going account fine
    | failed account short failed stopped => exact .failed account short failed stopped
  | finish =>
    cases h with
    | going account fine => exact .going account.finish fine
    | failed account short failed stopped =>
      refine .failed account short failed ?_
      simpa [call, finish_of_failed stopped] using stopped

theorem sound_ofCalls (hp : p.phase.part = .head) (calls : List Call) :
    (ofCalls p calls).Sound := by
  induction calls using List.reverseRecOn with
  | nil => exact .going (.head hp) (by simp [Failed, ofCalls])
  | append_singleton calls c ih =>
    rw [ofCalls_concat]
    exact sound_call ih c

theorem octets_call (h : s.octets.length = s.parser.bodyBytes) (c : Call) :
    (s.call c).octets.length = (s.call c).parser.bodyBytes := by
  cases c with
  | feed data =>
    rw [octets, events_feed, List.flatMap_append, List.length_append]
    exact (congrArg (· + _) h).trans (bodyBytes_of_feed rfl).symm
  | expectNoBody flag => exact h
  | finish => exact h.trans s.parser.bodyBytes_finish.symm

theorem octets_ofCalls (hb : p.bodyBytes = 0) (calls : List Call) :
    (ofCalls p calls).octets.length = (ofCalls p calls).parser.bodyBytes := by
  induction calls using List.reverseRecOn with
  | nil => exact hb.symm
  | append_singleton calls c ih =>
    rw [ofCalls_concat]
    exact octets_call ih c

end Session

section Shape

variable {es : List Event} {phase : Phase} {total : Nat} {framing : Framing}
  {expects : Nat → Bool → Prop}

theorem within_of_leaves (h : framing.Leaves total phase) : framing.Within total := by
  cases framing with
  | empty => exact h.1
  | length n =>
    obtain ⟨left, rfl, -⟩ := h
    exact Nat.le_add_right total left
  | chunked => trivial
  | untilClose => trivial

theorem within_of_filled (h : framing.Filled total) : framing.Within total := by
  cases framing with
  | empty => exact h
  | length n => exact Nat.le_of_eq h
  | chunked => trivial
  | untilClose => trivial

theorem Account.shape (h : Account expects es phase) : es = [] ∨
    ∃ (head : ResponseHead) (bodiless : Bool) (framing : Framing) (pieces : List Bytes)
      (ending : List Event), es = .head head (decide (framing = .empty ∨ framing = .length 0)) ::
        (pieces.map .chunk ++ ending) ∧
      Framing.resolve head.fields bodiless = .ok framing ∧ (∀ piece ∈ pieces, piece ≠ []) ∧
      framing.Within pieces.flatten.length ∧
      (ending = [] ∨ (∃ trailers, ending = [.complete trailers]) ∧ phase = .complete none ∧
        framing.Filled pieces.flatten.length) := by
  cases h with
  | head part => exact .inl rfl
  | @body head bodiless framing pieces phase expected framed filled leaves =>
    exact .inr ⟨head, bodiless, framing, pieces, [], by simp, framed, filled,
      within_of_leaves leaves, .inl rfl⟩
  | @ended head bodiless framing pieces trailers expected framed filled full =>
    exact .inr ⟨head, bodiless, framing, pieces, _, rfl, framed, filled,
      within_of_filled full, .inr ⟨⟨trailers, rfl⟩, rfl, full⟩⟩

theorem eq_nil_of_bodiless {pieces : List Bytes} (hf : framing = .empty ∨ framing = .length 0)
    (within : framing.Within pieces.flatten.length) (filled : ∀ piece ∈ pieces, piece ≠ []) :
    pieces = [] := by
  have hzero : pieces.flatten = [] := by
    apply List.length_eq_zero_iff.1
    rcases hf with rfl | rfl
    · exact within
    · exact Nat.le_zero.1 within
  cases pieces with
  | nil => rfl
  | cons piece pieces =>
    exact absurd (List.append_eq_nil_iff.1 hzero).1 (filled piece List.mem_cons_self)

theorem octets_of_pieces (pieces : List Bytes) :
    (pieces.map Event.chunk).flatMap Event.octets = pieces.flatten := by
  induction pieces with
  | nil => rfl
  | cons piece pieces ih => simp [ih, Event.octets]

theorem Account.message (h : Account expects es phase) :
    ∃ whole, Event.Message whole ∧ es <+: whole := by
  obtain rfl | ⟨head, bodiless, framing, pieces, ending, rfl, -, filled, within, hend⟩ := h.shape
  · exact ⟨_, .intro ⟨⟨.http11, 200, ""⟩, .empty⟩ false [] .empty (by simp) (by simp),
      List.nil_prefix⟩
  · have bare := fun hb => eq_nil_of_bodiless (of_decide_eq_true hb) within filled
    obtain rfl | ⟨⟨trailers, rfl⟩, -⟩ := hend
    · refine ⟨_, .intro head _ pieces .empty filled bare, ?_⟩
      rw [List.append_nil, ← List.cons_append]
      exact List.prefix_append _ _
    · exact ⟨_, .intro head _ pieces trailers filled bare, List.prefix_refl _⟩

theorem Account.phase_of_complete {trailers : Fields} (h : Account expects es phase)
    (hc : .complete trailers ∈ es) : phase = .complete none := by
  obtain rfl | ⟨head, bodiless, framing, pieces, ending, rfl, -, -, -, hend⟩ := h.shape
  · cases hc
  · obtain rfl | ⟨-, hphase, -⟩ := hend
    · simp at hc
    · exact hphase

theorem Account.counted {head : ResponseHead} {n : Nat} (h : Account expects es phase)
    (hh : .head head false ∈ es) (hn : Framing.resolve head.fields false = .ok (.length n)) :
    (es.flatMap Event.octets).length ≤ n ∧
      ∀ trailers, .complete trailers ∈ es → (es.flatMap Event.octets).length = n := by
  obtain rfl | ⟨first, bodiless, framing, pieces, ending, rfl, framed, -, within, hend⟩ := h.shape
  · cases hh
  have hfirst : head = first ∧ ¬(framing = .empty ∨ framing = .length 0) := by
    obtain rfl | ⟨⟨trailers, rfl⟩, -⟩ := hend <;> simpa using hh
  have hoctets : (Event.head first (decide (framing = .empty ∨ framing = .length 0)) ::
      (pieces.map .chunk ++ ending)).flatMap Event.octets = pieces.flatten := by
    obtain rfl | ⟨⟨trailers, rfl⟩, -⟩ := hend <;>
      simp [List.flatMap_append, octets_of_pieces, Event.octets]
  obtain ⟨rfl, hbody⟩ := hfirst
  rw [hoctets]
  cases bodiless with
  | true => exact absurd (.inl (Framing.empty_of_bodiless framed)) hbody
  | false =>
    rw [hn] at framed
    cases framed
    refine ⟨within, fun trailers hc => ?_⟩
    obtain rfl | ⟨-, -, full⟩ := hend
    · simp at hc
    · exact full

end Shape

/-- However a new parser is called, it reports a message or the beginning of one, counts the octets
of the body as they are handed out, hands out no more than were announced, and all of them before
the message is complete. After that there are no events, and after a failure only failures. -/
theorem reports_message (limits : Limits) (method : String) (calls : List Call) :
    let s := Session.ofCalls (forMethod method limits) calls
    (∃ whole, Event.Message whole ∧ s.events <+: whole) ∧
    s.octets.length = s.parser.bodyBytes ∧
    (∀ head n, .head head false ∈ s.events → Framing.resolve head.fields false = .ok (.length n) →
      s.octets.length ≤ n ∧ ∀ trailers, .complete trailers ∈ s.events → s.octets.length = n) ∧
    (∀ trailers, .complete trailers ∈ s.events → ∀ data, (s.parser.feed data).1 = .ok none) ∧
    (s.Failed → s.parser.state = .failed ∧
      (∀ data, s.parser.feed data = (.error .stopped, s.parser)) ∧ s.parser.finish = s.parser) := by
  intro s
  have hs : s.Sound := Session.sound_ofCalls rfl calls
  obtain ⟨phase, account⟩ : ∃ phase, Account (fun _ _ => True) s.events phase := by
    cases hs with
    | going account fine => exact ⟨_, account⟩
    | failed account short failed stopped => exact ⟨_, account⟩
  refine ⟨account.message, Session.octets_ofCalls rfl calls,
    fun head n hh hn => account.counted hh hn, fun trailers hc data => ?_, fun hf => ?_⟩
  · cases hs with
    | going account fine => exact feed_of_ended (account.phase_of_complete hc) data
    | failed account short failed stopped =>
      rw [account.phase_of_complete hc] at short
      exact absurd rfl short
  · cases hs with
    | going account fine => exact absurd hf fine
    | failed account short failed stopped =>
      refine ⟨?_, feed_of_failed stopped, finish_of_failed stopped⟩
      rw [state, stopped]
      rfl

end Parser
end HttpClient
