import CipherLink.Bytes

/-!
# Streams of bytes

What goes wrong when bytes are read from a stream or written to one is a fault. It
is transient when the same operation may succeed later.

A sink is where a writer's bytes go. It takes all bytes, or a number of them and then
fails; it may also fail when it is flushed or shut down. A source is what a stream
delivers to its reader: packets of data, faults that make a single read fail, and
silence, behind which nothing more arrives. A source without any of these left is at
its end.
-/

namespace CipherLink

/-- The kinds of stream faults, of which the transient ones and the early end
have a meaning of their own. -/
inductive FaultKind where
  | timedOut
  | wouldBlock
  | interrupted
  | unexpectedEnd
  | other (name : String)
deriving DecidableEq, Repr

namespace FaultKind

def name : FaultKind → String
  | .timedOut => "TimedOut"
  | .wouldBlock => "WouldBlock"
  | .interrupted => "Interrupted"
  | .unexpectedEnd => "UnexpectedEof"
  | .other name => name

def ofName (s : String) : FaultKind :=
  ([timedOut, wouldBlock, interrupted, unexpectedEnd].find? fun kind => kind.name == s).getD
    (.other s)

def isTransient : FaultKind → Bool
  | .timedOut | .wouldBlock | .interrupted => true
  | .unexpectedEnd | .other _ => false

end FaultKind

structure StreamFault where
  kind : FaultKind
  message : String
deriving DecidableEq, Repr

structure Sink where
  taken : Bytes
  /-- How many bytes the sink takes in all, and how it fails after that. -/
  room : Option (Nat × StreamFault)
  flushFault : Option StreamFault
  shutdownFault : Option StreamFault
deriving DecidableEq, Repr

namespace Sink

def endless : Sink := ⟨[], none, none, none⟩

/-- The sink behind a write, and how the write failed if it did. What fits is
taken even then. -/
def write (sink : Sink) (bs : Bytes) : Sink × Option StreamFault :=
  match sink.room with
  | none => ({ sink with taken := sink.taken ++ bs }, none)
  | some (limit, fault) =>
    let free := limit - sink.taken.length
    if bs.length ≤ free then ({ sink with taken := sink.taken ++ bs }, none)
    else ({ sink with taken := sink.taken ++ bs.take free }, some fault)

def writeFlush (sink : Sink) (bs : Bytes) : Sink × Option StreamFault :=
  match sink.write bs with
  | (sink, none) => (sink, sink.flushFault)
  | failed => failed

def drain (sink : Sink) : Bytes × Sink :=
  (sink.taken, { sink with taken := [] })

end Sink

inductive Packet where
  | data (bytes : Bytes)
  | fault (fault : StreamFault)
  | silence
deriving DecidableEq, Repr

abbrev Source := List Packet

namespace Source

/-- How an attempt to read a number of bytes ends: with that many bytes, or with
fewer because the source ended or failed, or not at all. -/
inductive Fill where
  | full (bytes : Bytes) (rest : Source)
  | ended (bytes : Bytes)
  | failed (bytes : Bytes) (fault : StreamFault) (rest : Source)
  | silent (rest : Source)
deriving DecidableEq, Repr

/-- Reads until `left` more bytes are there, behind those that were read before.
A read takes from one packet at most. -/
def fillFrom (left : Nat) (before : Bytes) : Source → Fill
  | [] => if left = 0 then .full before [] else .ended before
  | .data bytes :: rest =>
    if left ≤ bytes.length then
      .full (before ++ bytes.take left) (.data (bytes.drop left) :: rest)
    else fillFrom (left - bytes.length) (before ++ bytes) rest
  | .fault fault :: rest =>
    if left = 0 then .full before (.fault fault :: rest) else .failed before fault rest
  | .silence :: rest =>
    if left = 0 then .full before (.silence :: rest) else .silent (.silence :: rest)

def fill (source : Source) (n : Nat) : Fill :=
  fillFrom n [] source

def bytes (source : Source) : Bytes :=
  source.flatMap fun
    | .data bytes => bytes
    | _ => []

def units (bytes : Bytes) : Source :=
  bytes.map fun b => .data [b]

/-- A source with each byte in a packet of its own. Two sources with the same grains
are one stream that is cut into packets in two ways. -/
def grains (source : Source) : Source :=
  source.flatMap fun
    | .data bytes => units bytes
    | packet => [packet]

def ofPieces (pieces : List Bytes) : Source :=
  pieces.map .data

def live : Source := [.silence]

def arrive (bytes : Bytes) : Source → Source
  | [] => []
  | .silence :: _ => [.data bytes, .silence]
  | packet :: rest => packet :: arrive bytes rest

def finish (source : Source) : Source :=
  source.filter (· != .silence)

end Source

end CipherLink
