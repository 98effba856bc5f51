import CipherLink.Frame
import CipherLink.Frame.Reader
import CipherLink.Frame.Writer
import CipherLink.Handshake
import CipherLink.Subscriptions

/-!
# Sessions

A session is one side of a link in use: messages are sent while it is connected,
and a read loop hears what the other side sends until either side closes the
session or reading fails. A closed session stays closed.
-/

namespace CipherLink

inductive SessionError where
  | notConnected
  | frame (cause : FrameError)
deriving DecidableEq, Repr

def SessionError.message : SessionError → String
  | .notConnected => "session is not connected"
  | .frame cause => "frame error: " ++ cause.message

def SessionError.kind : SessionError → String
  | .notConnected => "NotConnected"
  | .frame _ => "Frame"

def SessionError.path : SessionError → List String
  | .notConnected => ["NotConnected"]
  | .frame cause => ["Frame", cause.kind]

structure Channel where
  agreement : Agreement
  reader : FrameReader
  writer : FrameWriter

namespace Channel

def ofLink (link : Link) (maxFrame : Nat) (source : Source) : Channel where
  agreement := link.toAgreement
  reader := ⟨link.decryptor, link.block, maxFrame, .records, source, true⟩
  writer := ⟨link.encryptor, link.block, maxFrame, .records, .endless, true⟩

def arrive (c : Channel) (bytes : Bytes) : Channel :=
  { c with reader := { c.reader with source := c.reader.source.arrive bytes } }

def finish (c : Channel) : Channel :=
  { c with reader := { c.reader with source := c.reader.source.finish } }

def drain (c : Channel) : Bytes × Channel :=
  let (bytes, sink) := c.writer.sink.drain
  (bytes, { c with writer := { c.writer with sink } })

end Channel

/-- The place of a session in the order in which sessions were started. -/
abbrev Handle := Nat

structure Session where
  id : ClientId
  channel : Channel
  /-- The bytes that were written and read, framing included. -/
  sent : UInt64
  received : UInt64
  isConnected : Bool
  isReading : Bool

namespace Session

def start (id : ClientId) (channel : Channel) : Session :=
  ⟨id, channel, 0, 0, true, true⟩

def afterWrite (s : Session) : FrameWriter.Step → Except SessionError Nat × Session
  | (.ok n, writer) =>
    (.ok n, { s with channel := { s.channel with writer }, sent := s.sent + UInt64.ofNat n })
  | (.error cause, writer) =>
    (.error (.frame cause), { s with channel := { s.channel with writer } })

/-- Sends a message; `none` where the writer has no answer. -/
def send (s : Session) (message : Message) (noise : Noise) :
    Option (Except SessionError Nat × Session) :=
  if s.isConnected then (s.channel.writer.write message noise).map s.afterWrite
  else some (.error .notConnected, s)

def sendEmpty (s : Session) (noise : Noise) : Option (Except SessionError Nat × Session) :=
  if s.isConnected then (s.channel.writer.writeEmpty noise).map s.afterWrite
  else some (.error .notConnected, s)

def close (s : Session) : Session :=
  { s with
    channel := { s.channel with writer := s.channel.writer.shutdown }
    isConnected := false
    isReading := false }

def disconnect (s : Session) (message : Message) (noise : Noise) : Session :=
  match s.send message noise with
  | some (_, s) => s.close
  | none => s.close

/-- What the read loop hears in one step. A waiting loop starts the step over
when there is more to read. -/
inductive Heard where
  | message (message : Message) (delivery : Delivery)
  | nothing
  | waiting
deriving DecidableEq, Repr

def ended (s : Session) : Session :=
  { s with isConnected := false, isReading := false }

def read (s : Session) : Heard × Session :=
  if !s.isReading then (.waiting, s)
  else
    match s.channel.reader.readNext with
    | .waiting => (.waiting, s)
    | .broken => (.nothing, { s with isReading := false })
    | .outcome outcome reader =>
      let s := { s with channel := { s.channel with reader } }
      match outcome with
      | .message message size =>
        (.message message ⟨s.id, size⟩, { s with received := s.received + UInt64.ofNat size })
      | .empty size => (.nothing, { s with received := s.received + UInt64.ofNat size })
      | .closed => (.nothing, s.ended)
      | .error cause => (.nothing, if cause.isTransient then s else s.ended)

end Session

end CipherLink
