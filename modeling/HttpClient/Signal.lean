import HttpClient.Failure
set_option autoImplicit false

/-!
Cancel signals. A board holds cells, and a signal watches one of them or none. A cell gets a cause
once and keeps it. Sources are fired by hand, timers by the clock, and a joint cell takes over the
cause of one of the older cells that it was made from.
-/

namespace HttpClient

inductive CellOrigin where
  | source
  | timer (deadline ms : Nat)
  | joint (inputs : List Nat)
  deriving DecidableEq, Repr

structure Cell where
  origin : CellOrigin
  cause : Option Cause
  deriving DecidableEq, Repr

/-- A signal that watches no cell never fires. -/
structure Signal where
  cell : Option Nat
  deriving DecidableEq, Repr

namespace Cell

def fire (cause : Cause) (c : Cell) : Cell := { c with cause := c.cause <|> some cause }

theorem cause_fire_of_cause {c : Cell} {first later : Cause} (h : c.cause = some first) :
    (c.fire later).cause = some first := by simp [fire, h]

def awaited (c : Cell) : List Nat :=
  match c.origin, c.cause with
  | .joint inputs, none => inputs
  | _, _ => []

def lookup (n : Nat) : List Cell → Option Cell
  | [] => none
  | c :: older => if older.length = n then some c else lookup n older

def causeOf (cells : List Cell) (n : Nat) : Option Cause := (lookup n cells).bind (·.cause)

def update (n : Nat) (f : Cell → Cell) : List Cell → List Cell
  | [] => []
  | c :: older => if older.length = n then f c :: older else c :: update n f older

/-- The numbers of the cells that somebody watches, be it through joint cells. -/
def watched (held : List Nat) : List Cell → List Nat
  | [] => []
  | c :: older =>
    if held.contains older.length then older.length :: watched (c.awaited ++ held) older
    else watched held older

/-- Takes over a cause for each of these cells that waits for a cell with a cause. -/
def settle (numbers : List Nat) : List Cell → List Cell
  | [] => []
  | c :: older =>
    let older := settle numbers older
    match c.awaited.findSome? (causeOf older) with
    | some cause => (if numbers.contains older.length then c.fire cause else c) :: older
    | none => c :: older

def due (now : Nat) : List Cell → List (Nat × Nat)
  | [] => []
  | c :: older =>
    match c.origin, c.cause with
    | .timer deadline _, none =>
      if deadline ≤ now then (deadline, older.length) :: due now older else due now older
    | _, _ => due now older

def expire (c : Cell) : Cell :=
  match c.origin with
  | .timer _ ms => c.fire (.timeout ms)
  | _ => c

end Cell

structure Board where
  now : Nat
  /-- The newest comes first. -/
  cells : List Cell
  signals : List (Option Signal)
  sources : List (Option Nat)
  deriving DecidableEq, Repr

namespace Board

def empty : Board := ⟨0, [], [], []⟩

def causeOf (b : Board) (s : Signal) : Option Cause := s.cell.bind (Cell.causeOf b.cells)

def signal? (b : Board) (i : Nat) : Option Signal := (b.signals[i]?).join

def source? (b : Board) (i : Nat) : Option Nat := (b.sources[i]?).join

def held (b : Board) : List Nat := b.signals.filterMap fun s => s.bind (·.cell)

def watched (b : Board) : List Nat := Cell.watched b.held b.cells

def settle (b : Board) : Board := { b with cells := Cell.settle b.watched b.cells }

def addCell (b : Board) (c : Cell) : Board := { b with cells := c :: b.cells }

def addSignal (b : Board) (s : Signal) : Board := { b with signals := b.signals ++ [some s] }

def addSource (b : Board) : Board :=
  { b.addCell ⟨.source, none⟩ with sources := b.sources ++ [some b.cells.length] }

def ofSources : Nat → Board
  | 0 => empty
  | n + 1 => (ofSources n).addSource

def watchSource (b : Board) (i : Nat) : Board := b.addSignal ⟨b.source? i⟩

def addNever (b : Board) : Board := b.addSignal ⟨none⟩

/-- Fires the timers whose time has come, the earliest first. -/
def expire (b : Board) : Board :=
  ((Cell.due b.now b.cells).mergeSort fun s t => s.1 < t.1 || (s.1 == t.1 && s.2 ≤ t.2)).foldl
    (fun b timer => { b with cells := Cell.update timer.2 Cell.expire b.cells }.settle) b

def addTimeout (b : Board) (ms : Nat) : Board :=
  ((b.addCell ⟨.timer (b.now + ms) ms, none⟩).addSignal ⟨some b.cells.length⟩).expire

def clone (b : Board) (i : Nat) : Board := b.addSignal ((b.signal? i).getD ⟨none⟩)

/-- A signal that fires as soon as one of the others has. If some have when it is made, the first
of them gives its cause. -/
def combine (b : Board) (signals : List Nat) : Board :=
  match signals.filterMap fun i => (b.signal? i).bind (·.cell) with
  | [] => b.addNever
  | inputs =>
    (b.addCell ⟨.joint inputs, inputs.findSome? (Cell.causeOf b.cells)⟩).addSignal
      ⟨some b.cells.length⟩

def fire (b : Board) (i : Nat) (cause : Cause) : Bool × Board :=
  match b.source? i with
  | none => (false, b)
  | some n =>
    ((Cell.causeOf b.cells n).isNone,
      { b with cells := Cell.update n (Cell.fire cause) b.cells }.settle)

def advance (b : Board) (ms : Nat) : Board := { b with now := b.now + ms }.expire

def drop (b : Board) (i : Nat) : Board := { b with signals := b.signals.set i none }

def dropSource (b : Board) (i : Nat) : Board := { b with sources := b.sources.set i none }

def fired (b : Board) : List (Option Bool) :=
  b.sources.map fun s => s.map fun n => (Cell.causeOf b.cells n).isSome

end Board
end HttpClient
