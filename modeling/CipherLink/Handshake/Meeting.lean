import CipherLink.Dialogue.Pair
import CipherLink.Handshake

/-!
# Meetings

Two parties that run the handshake with each other, taking steps in turns until
neither can go on, and the buffers that the two sides of a link send each other after it.
A buffer is encrypted where it is sent, and decrypted when the other side takes it up.
Either direction keeps its order; how the two interleave, and how far a side lags behind
the other one, is up to the events.

One side may hold handshakes one after another under one configuration. Each of them
finds the key files that the one before it left, whether that one succeeded or not.
-/

namespace CipherLink

namespace LinkConfig

def offerCount (c : LinkConfig) : Nat :=
  c.keyExchange.size + c.symmetric.size

end LinkConfig

namespace Handshake

/-- A bound on the steps of a side that offers `own` algorithms and is offered
`theirs`. -/
def stepBound (own theirs : Nat) : Nat :=
  32 + 3 * own + 2 * theirs

def meetingBound (left right : Party) : Nat :=
  stepBound left.config.offerCount right.config.offerCount +
    stepBound right.config.offerCount left.config.offerCount

def encounter (left right : Party) : Pair Link Link :=
  ⟨.start left.files (dialogue left), .start right.files (dialogue right)⟩

def meet (left right : Party) : Pair Link Link :=
  (encounter left right).follow (Pair.inTurns (meetingBound left right))

end Handshake

/-- One direction of a link: the transforms at its ends, the encrypted buffers
between them and the decrypted ones that have come out. -/
structure Direction where
  encryptor : Encryptor
  decryptor : Decryptor
  underway : List Bytes
  arrived : List Bytes

namespace Direction

def send (d : Direction) (buffer : Bytes) : Except CryptoError Direction := do
  let (encrypted, encryptor) ← d.encryptor.apply buffer
  return { d with encryptor, underway := d.underway ++ [encrypted] }

def receive (d : Direction) : Except CryptoError Direction :=
  match d.underway with
  | [] => .ok d
  | encrypted :: underway => do
    let (buffer, decryptor) ← d.decryptor.apply encrypted
    return { d with decryptor, underway, arrived := d.arrived ++ [buffer] }

end Direction

def Turn.other : Turn → Turn
  | .left => .right
  | .right => .left

inductive Activity where
  | send (side : Turn) (buffer : Bytes)
  | receive (side : Turn)
deriving DecidableEq, Repr

def Activity.buffer? (side : Turn) : Activity → Option Bytes
  | .send sender buffer => if sender = side then some buffer else none
  | .receive _ => none

def Activity.sentBy (activities : List Activity) (side : Turn) : List Bytes :=
  activities.filterMap (Activity.buffer? side)

structure Traffic where
  fromLeft : Direction
  fromRight : Direction

namespace Traffic

def between (left right : Link) : Traffic :=
  ⟨⟨left.encryptor, right.decryptor, [], []⟩, ⟨right.encryptor, left.decryptor, [], []⟩⟩

def direction (t : Traffic) : Turn → Direction
  | .left => t.fromLeft
  | .right => t.fromRight

def put (t : Traffic) (d : Direction) : Turn → Traffic
  | .left => { t with fromLeft := d }
  | .right => { t with fromRight := d }

def step (t : Traffic) : Activity → Except CryptoError Traffic
  | .send side buffer => return t.put (← (t.direction side).send buffer) side
  | .receive side => return t.put (← (t.direction side.other).receive) side.other

/-- The traffic after a run of activities, up to the first that fails. -/
def run (t : Traffic) : List Activity → Except CryptoError Traffic
  | [] => .ok t
  | activity :: activities => do (← t.step activity).run activities

end Traffic

def KeyExchangeAlgorithm.rsaSize? : KeyExchangeAlgorithm → Option UInt32
  | .identity => none
  | .rsa size => some size

/-- One handshake of a series: what is drawn for it, how many operations of the stream
come to an end in time, and the stream. -/
structure Visit where
  noise : Noise
  operations : Nat
  source : Source
  sink : Sink

namespace Visit

def handshake (v : Visit) (config : LinkConfig) (files : KeyFiles) : Dialogue.Ended Link :=
  Handshake.negotiateWithin ⟨config, files, v.noise⟩ v.operations v.source v.sink

def selection (v : Visit) (config : LinkConfig) : Dialogue KeyExchangeAlgorithm :=
  Handshake.select .keyExchange config.keyExchange .identity config.maxField v.noise.even.odd

def selected? (v : Visit) (config : LinkConfig) : Option KeyExchangeAlgorithm :=
  (((v.selection config).expire config.handshakeTimeout v.operations).run config.handshakeTimeout
    .start .empty v.source v.sink).result.toOption

end Visit

namespace LinkConfig

end LinkConfig

end CipherLink
