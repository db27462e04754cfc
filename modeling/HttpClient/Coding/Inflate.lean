import HttpClient.Bytes
set_option autoImplicit false

/-!
The deflate format: blocks of stored octets or of literals and back references under prefix codes.
Every function consumes bits from the front of a list and says whether the input ran out or is
damaged.
-/

namespace HttpClient.Inflate

abbrev Bits := List Bool

def bitsOf (bs : Bytes) : Bits :=
  bs.flatMap fun b => (List.range 8).map fun i => b.toNat.testBit i

inductive Stop where
  | starved
  | damaged
  deriving DecidableEq, Repr

def takeNumber : Nat → Bits → Except Stop (Nat × Bits)
  | 0, bits => .ok (0, bits)
  | _ + 1, [] => .error .starved
  | n + 1, b :: bits => do
    let (high, bits) ← takeNumber n bits
    return (2 * high + b.toNat, bits)

/-- A canonical prefix code: for each length from 1 on, the symbols of that length in order. -/
abbrev Code := List (Array Nat)

def symbolsOfLength (lengths : List Nat) (n : Nat) : Array Nat :=
  ((lengths.zipIdx.filter fun (length, _) => length == n).map (·.2)).toArray

def codeOf (lengths : List Nat) : Code :=
  (List.range 15).map fun i => symbolsOfLength lengths (i + 1)

/-- Whether the lengths use up all words: a code with a choice has to be complete. -/
def isComplete (code : Code) : Bool :=
  code.zipIdx.foldl (fun sum (row, i) => sum + row.size <<< (14 - i)) 0 == 1 <<< 15

def symbolCount (code : Code) : Nat := code.foldl (fun n row => n + row.size) 0

/-- Reads a symbol; `word` holds the bits so far and `first` the first word of this length. -/
def takeSymbolFrom : Code → (word first : Nat) → Bits → Except Stop (Nat × Bits)
  | [], _, _, _ => .error .damaged
  | row :: longer, word, first, bits =>
    if (row :: longer).all (·.isEmpty) then .error .damaged
    else match bits with
      | [] => .error .starved
      | b :: bits =>
        let word := 2 * word + b.toNat
        let first := 2 * first
        match row[word - first]? with
        | some symbol => .ok (symbol, bits)
        | none => takeSymbolFrom longer word (first + row.size) bits

def takeSymbol (code : Code) (bits : Bits) : Except Stop (Nat × Bits) :=
  takeSymbolFrom code 0 0 bits

/-- Lengths of copies: the least one of each symbol from 257 on, and the extra bits. -/
def copyLengths : Array (Nat × Nat) :=
  #[(3, 0), (4, 0), (5, 0), (6, 0), (7, 0), (8, 0), (9, 0), (10, 0), (11, 1), (13, 1), (15, 1),
    (17, 1), (19, 2), (23, 2), (27, 2), (31, 2), (35, 3), (43, 3), (51, 3), (59, 3), (67, 4),
    (83, 4), (99, 4), (115, 4), (131, 5), (163, 5), (195, 5), (227, 5), (258, 0)]

/-- Distances of copies: the least one of each symbol, and the extra bits. -/
def copyDistances : Array (Nat × Nat) :=
  #[(1, 0), (2, 0), (3, 0), (4, 0), (5, 1), (7, 1), (9, 2), (13, 2), (17, 3), (25, 3), (33, 4),
    (49, 4), (65, 5), (97, 5), (129, 6), (193, 6), (257, 7), (385, 7), (513, 8), (769, 8),
    (1025, 9), (1537, 9), (2049, 10), (3073, 10), (4097, 11), (6145, 11), (8193, 12), (12289, 12),
    (16385, 13), (24577, 13)]

def takeScaled (table : Array (Nat × Nat)) (symbol : Nat) (bits : Bits) :
    Except Stop (Nat × Bits) :=
  match table[symbol]? with
  | none => .error .damaged
  | some (least, extra) => do
    let (more, bits) ← takeNumber extra bits
    return (least + more, bits)

/-- Repeats what was written `distance` octets ago; before the start there are zeros. -/
def copy (out : Array UInt8) (distance : Nat) : Nat → Array UInt8
  | 0 => out
  | n + 1 =>
    let b := if distance ≤ out.size then (out[out.size - distance]?).getD 0 else 0
    copy (out.push b) distance n

/-- What has been written, and why reading stopped or what is left to read. -/
abbrev Written (α : Type) := Array UInt8 × Except Stop α

inductive Item where
  | literal (b : UInt8)
  | ending
  | span (length distance : Nat)
  deriving DecidableEq, Repr

def takeItem (literals distances : Code) (bits : Bits) : Except Stop (Item × Bits) := do
  let (symbol, bits) ← takeSymbol literals bits
  if symbol < 256 then return (.literal symbol.toUInt8, bits)
  if symbol = 256 then return (.ending, bits)
  let (length, bits) ← takeScaled copyLengths (symbol - 257) bits
  let (far, bits) ← takeSymbol distances bits
  let (distance, bits) ← takeScaled copyDistances far bits
  return (.span length distance, bits)

@[inline] def goOn {α : Type} (out : Array UInt8) (r : Except Stop α) (go : α → Written Bits) :
    Written Bits :=
  match r with
  | .error stop => (out, .error stop)
  | .ok x => go x

/-- The literals and copies of a block up to its end. Every round reads a bit at least. -/
def compressed (literals distances : Code) : Nat → Bits → Array UInt8 → Written Bits
  | 0, _, out => (out, .error .starved)
  | fuel + 1, bits, out =>
    goOn out (takeItem literals distances bits) fun (item, bits) =>
      match item with
      | .literal b => compressed literals distances fuel bits (out.push b)
      | .ending => (out, .ok bits)
      | .span length distance =>
        compressed literals distances fuel bits (copy out distance length)

def verbatim : Nat → Bits → Array UInt8 → Written Bits
  | 0, bits, out => (out, .ok bits)
  | n + 1, bits, out =>
    goOn out (takeNumber 8 bits) fun (b, bits) => verbatim n bits (out.push b.toUInt8)

/-- A stored block begins at an octet with its length, given twice. -/
def takeStoredLength (bits : Bits) : Except Stop (Nat × Bits) := do
  let (length, bits) ← takeNumber 16 (bits.drop (bits.length % 8))
  let (check, bits) ← takeNumber 16 bits
  if length + check ≠ 65535 then throw .damaged
  return (length, bits)

def stored (bits : Bits) (out : Array UInt8) : Written Bits :=
  goOn out (takeStoredLength bits) fun (length, bits) => verbatim length bits out

def fixedLiterals : Code :=
  codeOf (List.replicate 144 8 ++ List.replicate 112 9 ++ List.replicate 24 7 ++
    List.replicate 8 8)

def fixedDistances : Code := codeOf (List.replicate 32 5)

def lengthOrder : List Nat := [16, 17, 18, 0, 8, 7, 9, 6, 10, 5, 11, 4, 12, 3, 13, 2, 14, 1, 15]

def takeNumbers (width : Nat) : Nat → Bits → Except Stop (List Nat × Bits)
  | 0, bits => .ok ([], bits)
  | n + 1, bits => do
    let (x, bits) ← takeNumber width bits
    let (xs, bits) ← takeNumbers width n bits
    return (x :: xs, bits)

/-- The length of a run of zeros: a short run after symbol 17, else a long one. -/
def takeZeroRun (symbol : Nat) (bits : Bits) : Except Stop (Nat × Bits) :=
  if symbol = 17 then (takeNumber 3 bits).map fun (n, bits) => (n + 3, bits)
  else (takeNumber 7 bits).map fun (n, bits) => (n + 11, bits)

/-- Code lengths, run-length coded, until there are `count`; the latest comes first in `found`. -/
def takeLengths (code : Code) (count : Nat) : Nat → Bits → List Nat → Except Stop (List Nat × Bits)
  | 0, _, _ => .error .starved
  | fuel + 1, bits, found => do
    if found.length = count then return (found.reverse, bits)
    if count < found.length then throw .damaged
    let (symbol, bits) ← takeSymbol code bits
    if symbol < 16 then takeLengths code count fuel bits (symbol :: found)
    else if symbol = 16 then
      match found with
      | [] => throw .damaged
      | last :: _ =>
        let (n, bits) ← takeNumber 2 bits
        takeLengths code count fuel bits (List.replicate (3 + n) last ++ found)
    else
      let (n, bits) ← takeZeroRun symbol bits
      takeLengths code count fuel bits (List.replicate n 0 ++ found)

def takeCodes (bits : Bits) : Except Stop (Code × Code × Bits) := do
  let (literals, bits) ← takeNumber 5 bits
  let (distances, bits) ← takeNumber 5 bits
  let (lengths, bits) ← takeNumber 4 bits
  if 29 < literals ∨ 29 < distances then throw .damaged
  let (widths, bits) ← takeNumbers 3 (lengths + 4) bits
  let widthOf (symbol : Nat) : Nat :=
    ((lengthOrder.zip widths).find? fun (s, _) => s == symbol).elim 0 (·.2)
  let widthCode := codeOf ((List.range 19).map widthOf)
  if !isComplete widthCode then throw .damaged
  let count := literals + 257 + (distances + 1)
  let (found, bits) ← takeLengths widthCode count (bits.length + 2) bits []
  let first := codeOf (found.take (literals + 257))
  let second := codeOf (found.drop (literals + 257))
  if [first, second].any fun code => !isComplete code && 1 < symbolCount code then throw .damaged
  return (first, second, bits)

def block (kind : Nat) (bits : Bits) (out : Array UInt8) : Written Bits :=
  if kind = 0 then stored bits out
  else if kind = 1 then compressed fixedLiterals fixedDistances (bits.length + 1) bits out
  else if kind = 2 then
    goOn out (takeCodes bits) fun (literals, distances, bits) =>
      compressed literals distances (bits.length + 1) bits out
  else (out, .error .damaged)

/-- Blocks up to the last one. Every round reads three bits at least. -/
def blocks : Nat → Bits → Array UInt8 → Written Bits
  | 0, _, out => (out, .error .starved)
  | fuel + 1, bits, out =>
    goOn out (takeNumber 3 bits) fun (head, bits) =>
      let (out, rest) := block (head / 2) bits out
      goOn out rest fun bits => if head % 2 = 1 then (out, .ok bits) else blocks fuel bits out

/-- What a deflate stream holds, and the octets after it if it is complete. -/
def inflate (bs : Bytes) : Bytes × Except Stop Bytes :=
  let bits := bitsOf bs
  let (out, rest) := blocks (bits.length + 1) bits #[]
  (out.toList, rest.map fun rest => bs.drop (bs.length - rest.length / 8))

end HttpClient.Inflate
