import HttpClient.Coding.Decoder
import HttpClient.Delivery.Channel
set_option autoImplicit false

/-! The caller's end of a body: it takes the queued data and undoes the content codings. -/

namespace HttpClient

inductive Pull where
  | wait
  | data (piece : Bytes)
  | ended
  | fail (failure : Failure)
  deriving DecidableEq, Repr

namespace Decoder

/-- Sends a piece through decoders, the outermost coding first. -/
def decodeAll (piece : Bytes) : List Decoder → Except IoFailure Bytes × List Decoder
  | [] => (.ok piece, [])
  | d :: ds =>
    match d.decode piece with
    | (.error failure, d) => (.error failure, d :: ds)
    | (.ok out, d) =>
      let (result, ds) := decodeAll out ds
      (result, d :: ds)

def finishAfter (piece : Bytes) (d : Decoder) : Except IoFailure Bytes × Decoder :=
  if piece.isEmpty then d.finish
  else match d.decode piece with
    | (.error failure, d) => (.error failure, d)
    | (.ok out, d) => match d.finish with
      | (.error failure, d) => (.error failure, d)
      | (.ok last, d) => (.ok (out ++ last), d)

/-- Ends all decoders; what one of them still holds goes through the next ones. -/
def finishAll (piece : Bytes) : List Decoder → Except IoFailure Bytes × List Decoder
  | [] => (.ok piece, [])
  | d :: ds =>
    match d.finishAfter piece with
    | (.error failure, d) => (.error failure, d :: ds)
    | (.ok out, d) =>
      let (result, ds) := finishAll out ds
      (result, d :: ds)

end Decoder

structure Reader where
  source : Nat
  decoders : List Decoder
  listening : Bool
  done : Bool
  deriving DecidableEq, Repr

namespace Reader

def ofSource (source : Nat) (decoders : List Decoder) : Reader := ⟨source, decoders, true, false⟩

def senderLost : Failure := .io ⟨.other, "body sender dropped before completion"⟩

def finish (r : Reader) : Pull × Reader :=
  match Decoder.finishAll [] r.decoders with
  | (.error failure, ds) => (.fail (.io failure), { r with decoders := ds, done := true })
  | (.ok [], ds) => (.ended, { r with decoders := ds, done := true })
  | (.ok out, ds) => (.data out, { r with decoders := ds, done := true })

def take (r : Reader) (c : Channel) : List Bytes → Pull × Reader × Channel
  | [] =>
    let c := { c with queue := [] }
    if c.sending then (.wait, r, c)
    else
      let r := { r with listening := false }
      match c.outcome with
      | .complete => let (pull, r) := r.finish; (pull, r, c)
      | .failed failure => (.fail failure, r, c)
      | .pending => (.fail senderLost, r, c)
  | piece :: rest =>
    match Decoder.decodeAll piece r.decoders with
    | (.error failure, ds) =>
      (.fail (.io failure), { r with decoders := ds }, { c with queue := rest })
    | (.ok [], ds) => take { r with decoders := ds } c rest
    | (.ok out, ds) => (.data out, { r with decoders := ds }, { c with queue := rest })

/-- The next piece of the body. A failure of the transfer comes before anything that is queued. -/
def pull (r : Reader) (c : Channel) : Pull × Reader × Channel :=
  match c.failure? with
  | some failure => (.fail failure, r, c)
  | none =>
    if r.done then (.ended, r, c)
    else if r.listening then r.take c c.queue
    else let (pull, r) := r.finish; (pull, r, c)

end Reader
end HttpClient
