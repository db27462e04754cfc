import HttpClient.Coding.Checksum
import HttpClient.Coding.Inflate
import HttpClient.ContentCoding
import HttpClient.IoFailure
set_option autoImplicit false

/-!
Streaming decoders of gzip and zlib data. What a decoder knows is a function of the octets it has
been given, however they were divided; what it has decoded from a piece it hands out with the next
one.
-/

namespace HttpClient

inductive Wrapper where
  | gzip
  | zlib
  deriving DecidableEq, Repr

inductive Reach where
  | open
  /-- The data and the checksum after it are there; `surplus` octets follow. -/
  | closed (sound : Bool) (surplus : Nat)
  | damaged
  deriving DecidableEq, Repr

namespace Wrapper

def afterZero : Bytes → Option Bytes
  | [] => none
  | b :: rest => if b = 0 then some rest else afterZero rest

def littleEndian (bs : Bytes) : Nat := bs.foldr (fun b n => b.toNat + 256 * n) 0

def afterPart (present : Bool) (part : Bytes → Option Bytes) (bs : Bytes) : Option Bytes :=
  if present then part bs else some bs

def afterExtra : Bytes → Option Bytes
  | a :: b :: rest =>
    let n := littleEndian [a, b]
    if n ≤ rest.length then some (rest.drop n) else none
  | _ => none

/-- What follows the parts that the flags announce: extra data, a name and a comment. -/
def afterParts (flags : UInt8) (bs : Bytes) : Option Bytes := do
  let bs ← afterPart (flags.toNat.testBit 2) afterExtra bs
  let bs ← afterPart (flags.toNat.testBit 3) afterZero bs
  afterPart (flags.toNat.testBit 4) afterZero bs

/-- The data after the fixed octets of a gzip header `bs`: its flags announce the parts that are
there and a checksum of everything before it. -/
def afterFlags (bs : Bytes) (flags : UInt8) (rest : Bytes) : Except Inflate.Stop Bytes :=
  if 32 ≤ flags then .error .damaged
  else match afterParts flags rest with
    | none => .error .starved
    | some rest =>
      if flags.toNat.testBit 1 then
        match rest with
        | a :: b :: after =>
          let header := bs.take (bs.length - rest.length)
          if (Checksum.crc32 header).toNat % 65536 = littleEndian [a, b] then .ok after
          else .error .damaged
        | _ => .error .starved
      else .ok rest

def afterGzipHeader (bs : Bytes) : Except Inflate.Stop Bytes :=
  match bs with
  | 31 :: 139 :: 8 :: flags :: _ :: _ :: _ :: _ :: _ :: _ :: rest => afterFlags bs flags rest
  | bs => if bs.length < 10 then .error .starved else .error .damaged

def afterZlibHeader : Bytes → Except Inflate.Stop Bytes
  | a :: b :: rest =>
    if (a.toNat * 256 + b.toNat) % 31 = 0 ∧ a.toNat % 16 = 8 ∧ a.toNat / 16 ≤ 7 ∧
        ¬b.toNat.testBit 5 then .ok rest
    else .error .damaged
  | _ => .error .starved

def afterHeader : Wrapper → Bytes → Except Inflate.Stop Bytes
  | .gzip => afterGzipHeader
  | .zlib => afterZlibHeader

def trailer : Wrapper → Nat
  | .gzip => 8
  | .zlib => 4

/-- Whether the checksum is that of the data; gzip adds the length. -/
def isSound (w : Wrapper) (data checksum : Bytes) : Bool :=
  match w with
  | .gzip =>
    littleEndian (checksum.take 4) == (Checksum.crc32 data).toNat &&
      littleEndian (checksum.drop 4) == data.length % 4294967296
  | .zlib => littleEndian checksum.reverse == Checksum.adler32 data

def unwrap (w : Wrapper) (bs : Bytes) : Bytes × Reach :=
  match w.afterHeader bs with
  | .error .starved => ([], .open)
  | .error .damaged => ([], .damaged)
  | .ok body =>
    match Inflate.inflate body with
    | (data, .error .starved) => (data, .open)
    | (data, .error .damaged) => (data, .damaged)
    | (data, .ok after) =>
      if after.length < w.trailer then (data, .open)
      else
        let sound := w.isSound data (after.take w.trailer)
        if w = .zlib ∧ ¬sound then (data, .damaged)
        else (data, .closed sound (after.length - w.trailer))

end Wrapper

/-- A decoder: the octets given so far, how much of their content has been decoded, and the part of
it that has not been handed out. -/
structure Decoder where
  wrapper : Wrapper
  input : Bytes
  decoded : Nat
  late : Bytes
  overrun : Bool
  deriving DecidableEq, Repr

namespace Decoder

def new (w : Wrapper) : Decoder := ⟨w, [], 0, [], false⟩

def ofCoding? : ContentCoding → Option Decoder
  | .gzip => some (new .gzip)
  | .deflate => some (new .zlib)
  | .identity | .other _ => none

def supported : List ContentCoding := [.gzip, .deflate]

def damaged : IoFailure := ⟨.invalidInput, "corrupt compressed data"⟩

def surplus : IoFailure := ⟨.writeZero, "data after the end of the compressed stream"⟩

def decode (d : Decoder) (piece : Bytes) : Except IoFailure Bytes × Decoder :=
  if piece.isEmpty then
    if d.overrun then (.ok d.late, { d with late := [] }) else (.ok [], d)
  else
    let input := d.input ++ piece
    let (data, reach) := d.wrapper.unwrap input
    let fresh := data.drop d.decoded
    match reach with
    | .damaged => (.error damaged, { d with input := input })
    | .closed _ (_ + 1) =>
      (.error surplus,
        { d with input := input, decoded := data.length, late := d.late ++ fresh, overrun := true })
    | .open | .closed _ 0 =>
      (.ok d.late, { d with input := input, decoded := data.length, late := fresh })

/-- The coded data is over. Zlib data may be cut off; gzip data may not. -/
def finish (d : Decoder) : Except IoFailure Bytes × Decoder :=
  match d.wrapper, (d.wrapper.unwrap d.input).2 with
  | _, .damaged => (.error damaged, d)
  | .gzip, .open => (.error damaged, d)
  | .gzip, .closed false _ => (.error damaged, d)
  | _, _ => (.ok d.late, { d with late := [] })

end Decoder
end HttpClient
