import CipherLink.Bytes
import CipherLink.Frame
import CipherLink.Stream
import CipherLink.Transform

/-!
# Frame writers

A writer sends messages, each in a frame of its own that is encrypted as a
whole. A frame that is refused leaves the writer as it was. After a failure of
the sink, and after a shutdown, the writer is closed.

The result of a write is `none` where its arithmetic has no answer, for empty
blocks and for sizes beyond 64 bits, and where the padding would leave the frame.
-/

namespace CipherLink

structure FrameWriter where
  encryptor : Encryptor
  /-- The block size in bytes. -/
  block : Nat
  /-- The greatest length of a payload. -/
  limit : Nat
  codec : Codec
  sink : Sink
  isOpen : Bool

namespace FrameWriter

/-- What a writer does in one step: the number of bytes of the frame, or why
there was none, and the writer for the next step. -/
abbrev Step := Except FrameError Nat × FrameWriter

def plainFrame (payload : Bytes) (total : Nat) (noise : Noise) : Bytes :=
  let used := Bytes.ofNat Frame.prefixLength payload.length ++ payload
  used ++ noise.take (total - used.length)

def plainFrame? (payload : Bytes) (total : Nat) (noise : Noise) : Option Bytes :=
  if Frame.prefixLength + payload.length ≤ total then some (plainFrame payload total noise)
  else none

def deliver (w : FrameWriter) (frame : Bytes) (encryptor : Encryptor) : Step :=
  match w.sink.writeFlush frame with
  | (sink, none) => (.ok frame.length, { w with encryptor, sink })
  | (sink, some fault) =>
    (.error (.transport fault), { w with encryptor, sink, isOpen := false })

def send (w : FrameWriter) (payload : Bytes) (noise : Noise) : Option Step :=
  if !w.isOpen then some (.error .closed, w)
  else if w.limit < payload.length then
    some (.error (.frameTooLarge payload.length w.limit), w)
  else if Frame.greatestLength < payload.length then
    some (.error (.frameTooLarge payload.length Frame.greatestLength), w)
  else do
    let total ← Frame.paddedLength? payload.length w.block
    let frame ← plainFrame? payload total noise
    match w.encryptor.apply frame with
    | .error cause => return (.error (.crypto cause), w)
    | .ok (frame, encryptor) => return w.deliver frame encryptor

/-- Writes a message. The announced size is checked before anything else. -/
def write (w : FrameWriter) (message : Message) (noise : Noise) : Option Step :=
  match w.codec.size message with
  | .error cause => some (.error (.ofCodecError cause), w)
  | .ok size =>
    if w.limit < size then some (.error (.frameTooLarge size w.limit), w)
    else do
      let _ ← Frame.paddedLength? size w.block
      match w.codec.encode message with
      | .error cause => return (.error (.ofCodecError cause), w)
      | .ok payload => w.send payload noise

def writeEmpty (w : FrameWriter) (noise : Noise) : Option Step :=
  w.send [] noise

/-- Closes the writer. A failure of the sink is not reported. -/
def shutdown (w : FrameWriter) : FrameWriter :=
  { w with isOpen := false }

end FrameWriter

end CipherLink
