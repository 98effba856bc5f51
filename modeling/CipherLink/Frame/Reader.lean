import CipherLink.Frame
import CipherLink.Stream
import CipherLink.Transform

/-!
# Frame readers

A reader recovers the messages of a writer from the bytes that its source
delivers, in packets of any sizes. It decrypts the first block of a frame to
learn the length, and then the rest. A fault that comes between two frames
leaves the reader open if it is transient; any other failure closes it.
-/

namespace CipherLink

inductive ReadOutcome where
  | message (message : Message) (size : Nat)
  | empty (size : Nat)
  | closed
  | error (cause : FrameError)
deriving DecidableEq, Repr

namespace ReadOutcome

def isData : ReadOutcome → Bool
  | .message _ _ | .empty _ => true
  | .closed | .error _ => false

def keepsOpen : ReadOutcome → Bool
  | .message _ _ | .empty _ => true
  | .closed => false
  | .error cause => cause.isTransient

end ReadOutcome

structure FrameReader where
  decryptor : Decryptor
  /-- The block size in bytes. -/
  block : Nat
  /-- The greatest length of a payload. -/
  limit : Nat
  codec : Codec
  source : Source
  isOpen : Bool

namespace FrameReader

/-- What a reader does in one step. It waits when its source falls silent; the
step then starts over once there is more to read. It is broken where an index
leaves its range, or a size leaves the range of 64 bits. -/
inductive Step where
  | outcome (outcome : ReadOutcome) (next : FrameReader)
  | waiting
  | broken

def midFrame (fault : StreamFault) : FrameError :=
  .transport (if fault.kind.isTransient then { fault with kind := .unexpectedEnd } else fault)

def decodePayload (codec : Codec) (payload : Bytes) (size : Nat) : ReadOutcome :=
  if payload.isEmpty then .empty size
  else
    match codec.decode payload with
    | .ok message => .message message size
    | .error cause => .error (.ofCodecError cause)

/-- The payload of a decrypted frame, if the frame is as long as that. -/
def payload? (frame : Bytes) (length : Nat) : Option Bytes := do
  let (_, rest) ← frame.split? Frame.prefixLength
  let (payload, _) ← rest.split? length
  return payload

def conclude (r : FrameReader) (frame : Bytes) (length total : Nat) : Step :=
  match payload? frame length with
  | some payload => .outcome (decodePayload r.codec payload total) r
  | none => .broken

def readRest (r : FrameReader) (first : Bytes) (length : Nat) : Step :=
  match Frame.paddedLength? length r.block with
  | none => .broken
  | some total =>
    if total ≤ r.block then r.conclude first length total
    else
      match r.source.fill (total - r.block) with
      | .silent _ => .waiting
      | .ended got =>
        .outcome (.error (.truncated total (r.block + got.length))) { r with source := [] }
      | .failed _ fault source => .outcome (.error (midFrame fault)) { r with source }
      | .full rest source =>
        match r.decryptor.apply rest with
        | .error cause => .outcome (.error (.crypto cause)) { r with source }
        | .ok (rest, decryptor) =>
          conclude { r with source, decryptor } (first ++ rest) length total

def readAnnounced (r : FrameReader) (first : Bytes) : Step :=
  match first.split? Frame.prefixLength with
  | none => .broken
  | some (front, _) =>
    let length := front.toInt
    if length < 0 then .outcome (.error (.negativeLength length)) r
    else if r.limit < length.toNat then
      .outcome (.error (.frameTooLarge length.toNat r.limit)) r
    else r.readRest first length.toNat

def readFrame (r : FrameReader) : Step :=
  match r.source.fill r.block with
  | .silent _ => .waiting
  | .ended [] => .outcome .closed { r with source := [] }
  | .ended got => .outcome (.error (.truncated r.block got.length)) { r with source := [] }
  | .failed [] fault source => .outcome (.error (.transport fault)) { r with source }
  | .failed _ fault source => .outcome (.error (midFrame fault)) { r with source }
  | .full first source =>
    if r.block = 0 then .outcome .closed r
    else
      match r.decryptor.apply first with
      | .error cause => .outcome (.error (.crypto cause)) { r with source }
      | .ok (first, decryptor) => readAnnounced { r with source, decryptor } first

def readNext (r : FrameReader) : Step :=
  if !r.isOpen then .outcome .closed r
  else
    match r.readFrame with
    | .outcome outcome next => .outcome outcome { next with isOpen := outcome.keepsOpen }
    | step => step

end FrameReader

end CipherLink
