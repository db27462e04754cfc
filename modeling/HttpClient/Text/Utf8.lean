import HttpClient.Bytes
set_option autoImplicit false

/-!
Reading UTF-8. `pieces` divides every octet string into characters and ill-formed runs; the strict
and the lossy reader are two views of that division.
-/

namespace HttpClient.Text.Utf8

/-- A character that has begun: how many octets are missing, the range of the next of them, the
bits read so far and the octets read so far. -/
structure Partial where
  missing : Nat
  low : UInt8
  high : UInt8
  bits : Nat
  width : Nat
  deriving DecidableEq, Repr

/-- A maximal run: a character, octets that begin no character, or a character that is cut off by
the end of the input. -/
inductive Piece where
  | char (c : Char)
  | malformed (width : Nat)
  | truncated
  deriving DecidableEq, Repr

def lead (b : UInt8) : Option Partial :=
  if 0xC2 ≤ b ∧ b ≤ 0xDF then some ⟨1, 0x80, 0xBF, b.toNat - 0xC0, 1⟩
  else if b = 0xE0 then some ⟨2, 0xA0, 0xBF, 0, 1⟩
  else if b = 0xED then some ⟨2, 0x80, 0x9F, 0xD, 1⟩
  else if 0xE1 ≤ b ∧ b ≤ 0xEF then some ⟨2, 0x80, 0xBF, b.toNat - 0xE0, 1⟩
  else if b = 0xF0 then some ⟨3, 0x90, 0xBF, 0, 1⟩
  else if b = 0xF4 then some ⟨3, 0x80, 0x8F, 4, 1⟩
  else if 0xF1 ≤ b ∧ b ≤ 0xF3 then some ⟨3, 0x80, 0xBF, b.toNat - 0xF0, 1⟩
  else none

def start (b : UInt8) : List Piece × Option Partial :=
  if b < 0x80 then ([.char (Char.ofNat b.toNat)], none)
  else match lead b with
    | some p => ([], some p)
    | none => ([.malformed 1], none)

def extend (p : Partial) (b : UInt8) : List Piece × Option Partial :=
  if p.low ≤ b ∧ b ≤ p.high then
    let bits := p.bits * 64 + (b.toNat - 0x80)
    if p.missing ≤ 1 then ([.char (Char.ofNat bits)], none)
    else ([], some ⟨p.missing - 1, 0x80, 0xBF, bits, p.width + 1⟩)
  else
    let (pieces, next) := start b
    (.malformed p.width :: pieces, next)

def step : Option Partial → UInt8 → List Piece × Option Partial
  | none, b => start b
  | some p, b => extend p b

def piecesFrom : Option Partial → Bytes → List Piece
  | none, [] => []
  | some _, [] => [.truncated]
  | p, b :: rest =>
    let (found, next) := step p b
    found ++ piecesFrom next rest

def pieces (bs : Bytes) : List Piece := piecesFrom none bs

/-- Why an octet string is no UTF-8, and where the first fault begins. -/
inductive Fault where
  | malformed (width index : Nat)
  | truncated (index : Nat)
  deriving DecidableEq, Repr

def Fault.message : Fault → String
  | .malformed width index => s!"invalid utf-8 sequence of {width} bytes from index {index}"
  | .truncated index => s!"incomplete utf-8 byte sequence from index {index}"

def readPieces (index : Nat) : List Piece → Except Fault (List Char)
  | [] => .ok []
  | .char c :: rest => (readPieces (index + c.utf8Size) rest).map (c :: ·)
  | .malformed width :: _ => .error (.malformed width index)
  | .truncated :: _ => .error (.truncated index)

/-- The strict reader: every octet belongs to a character, or the first fault is reported. -/
def decode (bs : Bytes) : Except Fault (List Char) := readPieces 0 (pieces bs)

/-- The lossy reader: every ill-formed run becomes one replacement character. -/
def decodeLossy (bs : Bytes) : List Char :=
  (pieces bs).map fun
    | .char c => c
    | _ => '\uFFFD'

end HttpClient.Text.Utf8
