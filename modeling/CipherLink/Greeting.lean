import CipherLink.Client
import CipherLink.Handshake.Meeting

/-!
# Greetings

A client that dials a listener of any kind: one that runs the handshake, sends
some frames and perhaps hangs up, or one that says nothing. Only a first frame
that announces an id opens the client; the frames behind it are published.
-/

namespace CipherLink

structure Greeter where
  party : Party
  answers : Bool
  /-- What is sent behind the handshake; `none` is a frame without a message. -/
  frames : List (Option Message)
  hangsUp : Bool

namespace Greeter

def speak (writer : FrameWriter) (noise : Noise) : List (Option Message) → Bytes
  | [] => writer.sink.taken
  | frame :: frames =>
    let step := match frame with
      | some message => writer.write message noise.even
      | none => writer.writeEmpty noise.even
    match step with
    | some (_, writer) => speak writer noise.odd frames
    | none => writer.sink.taken

def source (g : Greeter) (link : Link) (noise : Noise) : Source :=
  let writer := (Channel.ofLink link g.party.config.maxFrame []).writer
  .data (speak writer noise g.frames) :: if g.hangsUp then [] else Source.live

end Greeter

namespace Client

def readAll (c : Client) : Nat → Client
  | 0 => c
  | limit + 1 =>
    match c.read with
    | (false, c) => readAll c limit
    | (true, c) => c

/-- The session of a client that dials the listener, and the client with the key
files that it has then. -/
def reach (c : Client) (g : Greeter) (noise : Noise) : Except ClientError Session × Client :=
  let patience := c.config.handshakeTimeout
  if !g.answers then (.error (.handshake (.timeout patience)), c)
  else
    let pair := Handshake.meet (c.party noise.even) g.party
    let outcome : Except ClientError Session :=
      match pair.left.result?, pair.right.result? with
      | some (.error cause), _ => .error (.handshake cause)
      | none, _ => .error (.handshake (.timeout patience))
      | some (.ok link), some (.ok peer) =>
        openSession patience (.ofLink link c.config.maxFrame (g.source peer noise.odd))
      | some (.ok _), _ => .error .missingIdentity
    (outcome, { c with files := pair.left.files })

def greet (c : Client) (network : Network) (g : Greeter) (noise : Noise) :
    Except ClientError ClientId × Client :=
  match c.beginConnect with
  | .error cause => (.error cause, c)
  | .ok c =>
    let (outcome, c) : Except ClientError Session × Client :=
      match network with
      | .isolated => (.error Network.unreachable, c)
      | .joined => c.reach g noise
    match outcome with
    | .error cause => (.error cause, c.abandonConnect)
    | .ok session => (.ok session.id, (c.addConnection session).readAll (g.frames.length + 1))

end Client

end CipherLink
