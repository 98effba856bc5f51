import CipherLink.Frame.Reader
import CipherLink.Frame.Writer

/-!
# Runs of frames

A writer that carries out orders one after another, each with random bytes of
its own, and a reader that is asked for one outcome after another.
-/

namespace CipherLink

inductive FrameOrder where
  | message (message : Message)
  | empty
deriving DecidableEq, Repr

namespace FrameOrder

def outcome (size : Nat) : FrameOrder → ReadOutcome
  | .message m => .message m size
  | .empty => .empty size

def payload : FrameOrder → Bytes
  | .message m => Recorded.encode m
  | .empty => []

def payloadIn (codec : Codec) : FrameOrder → Except CodecError Bytes
  | .message m => codec.encode m
  | .empty => .ok []

end FrameOrder

def ReadOutcome.size? : ReadOutcome → Option Nat
  | .message _ size | .empty size => some size
  | .closed | .error _ => none

def ReadOutcome.sizes : ReadOutcome → List Nat
  | .message _ size | .empty size => [size]
  | .error (.truncated expected got) => [expected, got]
  | .error (.frameTooLarge length _) => [length]
  | .closed | .error _ => []

structure Parcel where
  order : FrameOrder
  frame : Bytes
deriving DecidableEq, Repr

def Parcel.outcome (p : Parcel) : ReadOutcome :=
  p.order.outcome p.frame.length

namespace FrameWriter

def perform (w : FrameWriter) (order : FrameOrder) (noise : Noise) : Option Step :=
  match order with
  | .message m => w.write m noise
  | .empty => w.writeEmpty noise

def performAll (w : FrameWriter) :
    List (FrameOrder × Noise) → Option (List (Except FrameError Nat) × FrameWriter)
  | [] => some ([], w)
  | (order, noise) :: orders => do
    let (result, w) ← w.perform order noise
    let (results, w) ← w.performAll orders
    return (result :: results, w)

end FrameWriter

namespace FrameReader

def readMany (r : FrameReader) : Nat → Option (List ReadOutcome)
  | 0 => some []
  | n + 1 =>
    match r.readNext with
    | .outcome outcome next => (next.readMany n).map (outcome :: ·)
    | .waiting | .broken => none

def steps (r : FrameReader) : Nat → List Step
  | 0 => []
  | n + 1 =>
    match r.readNext with
    | .outcome outcome next => .outcome outcome next :: next.steps n
    | step => [step]

def after (r : FrameReader) : Nat → Option FrameReader
  | 0 => some r
  | n + 1 =>
    match r.readNext with
    | .outcome _ next => next.after n
    | .waiting | .broken => none

def announced? (r : FrameReader) : Option Int := do
  let (first, _) ← r.source.bytes.split? r.block
  let (plain, _) ← (r.decryptor.apply first).toOption
  let (front, _) ← plain.split? Frame.prefixLength
  return front.toInt

end FrameReader

end CipherLink
