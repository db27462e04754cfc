import HttpClient.Response.Parser
set_option autoImplicit false

namespace HttpClient

/-- One while the end of the message has not been reported. -/
def Phase.unreported : Phase → Nat
  | .complete (some _) => 1
  | _ => 0

theorem Phase.unreported_le_one (phase : Phase) : phase.unreported ≤ 1 := by
  unfold unreported; split <;> omega

namespace Parser

/-- Twice the buffered octets, and one more while the end of the message is not reported. Every
event makes it smaller. -/
def pending (p : Parser) : Nat := 2 * p.buffer.length + p.phase.unreported

theorem pending_record (p : Parser) (event : Event) (phase : Phase) (rest : Bytes) :
    (p.record event phase rest).pending = 2 * rest.length + phase.unreported := by
  cases event <;> rfl

theorem length_of_takeBody {p : Parser} {left : Nat} {later : Nat → Phase} {wait phase : Phase}
    {event : Event} {rest : Bytes} (h : p.takeBody left later wait = .event event phase rest) :
    rest.length < p.buffer.length := by
  unfold takeBody at h
  split at h
  · simp at h
  · next b data hb =>
    cases h
    have hl := congrArg List.length hb
    simp only [List.length_take, List.length_cons] at hl
    simp only [List.length_drop]; omega

theorem moveChunkLine_ne_event (p : Parser) (wait phase : Phase) (sized : Nat → Phase)
    (event : Event) (rest : Bytes) : p.moveChunkLine wait sized ≠ .event event phase rest := by
  unfold moveChunkLine
  split
  · split <;> simp
  · split
    · simp
    · split <;> simp

/-- An event consumes something or is the last one. -/
theorem pending_of_move_event {p : Parser} {event : Event} {phase : Phase} {rest : Bytes}
    (h : p.move = .event event phase rest) : 2 * rest.length + phase.unreported < p.pending := by
  have hu := phase.unreported_le_one
  have hp : 2 * p.buffer.length ≤ p.pending := by unfold pending; omega
  unfold move at h
  split at h
  · unfold moveStatusLine at h
    split at h
    · split at h <;> simp [headTooLarge] at h
    · dsimp only at h
      split at h
      · simp [headTooLarge] at h
      · split at h <;> simp at h
  · unfold moveFieldLines at h
    split at h
    · split at h <;> simp [headTooLarge] at h
    · next line after hl =>
      have := Bytes.length_of_splitLine hl
      dsimp only at h
      split at h
      · simp [headTooLarge] at h
      · split at h
        · unfold endHead at h
          split at h
          · simp at h
          · split at h
            · simp at h
            · cases h; omega
        · split at h <;> simp at h
  · have := length_of_takeBody h; omega
  · have := length_of_takeBody h; omega
  · exact absurd h (moveChunkLine_ne_event _ _ _ _ _ _)
  · have := length_of_takeBody h; omega
  · unfold moveChunkEnd at h
    split at h
    · simp at h
    · split at h <;> simp at h
    · split at h <;> simp at h
  · exact absurd h (moveChunkLine_ne_event _ _ _ _ _ _)
  · unfold moveTrailers at h
    split at h
    · split at h <;> simp [headTooLarge] at h
    · split at h
      · simp at h
      · dsimp only at h
        split at h
        · simp [headTooLarge] at h
        · split at h <;> simp at h
  · simp at h
  · next hq =>
    cases h
    simp [pending, hq, Phase.unreported]
  · simp at h

theorem pending_of_advance {p q : Parser} {event : Event}
    (h : p.advance = (.ok (some event), q)) : q.pending < p.pending := by
  fun_induction advance p with
  | case1 => simp at h
  | case2 p phase rest hm ih =>
    have hr := length_of_move_next hm
    have hu := phase.unreported_le_one
    have := ih h
    simp only [pending] at this ⊢
    omega
  | case3 p e phase rest hm =>
    cases h
    rw [pending_record]
    exact pending_of_move_event hm
  | case4 => simp at h

def events (p : Parser) : List Event × Option ParseError × Parser :=
  match _h : p.advance with
  | (.ok none, q) => ([], none, q)
  | (.error error, q) => ([], some error, q)
  | (.ok (some event), q) =>
    let (later, error, last) := q.events
    (event :: later, error, last)
termination_by p.pending
decreasing_by exact pending_of_advance _h

def drain (p : Parser) (data : Bytes) : List Event × Option ParseError × Parser :=
  if p.phase = .failed then ([], some .stopped, p)
  else { p with buffer := p.buffer ++ data }.events

def drainAll (p : Parser) : List Bytes → List Event × Option ParseError × Parser
  | [] => ([], none, p)
  | data :: more =>
    match p.drain data with
    | (events, some error, q) => (events, some error, q)
    | (events, none, q) =>
      let (later, error, last) := q.drainAll more
      (events ++ later, error, last)

end Parser
end HttpClient
