import CipherLink.Frame.Steps
import CipherLink.Session

/-!
# Crossings

Callers send over one end of a link at the same time, and the session at the other
end reads. A call waits for the writer, makes its frame and hands it to the sink in
pieces while it holds the writer, and counts its bytes only after it has let go of
it. The link carries what the sink has taken, any number of bytes at a time. Which
step is next is up to the schedule.
-/

namespace CipherLink

def Session.sendOrder (s : Session) (order : FrameOrder) (noise : Noise) :
    Option (Except SessionError Nat × Session) :=
  match order with
  | .message message => s.send message noise
  | .empty => s.sendEmpty noise

inductive CallStage where
  | idle
  | waiting (order : FrameOrder) (noise : Noise)
  | writing (parcel : Parcel)
  | counting (parcel : Parcel)

structure Caller where
  orders : List (FrameOrder × Noise)
  stage : CallStage
  results : List (FrameOrder × Except SessionError Nat)

structure Holder where
  caller : Nat
  left : Bytes
deriving DecidableEq, Repr

structure Grant where
  caller : Nat
  parcel : Parcel
deriving DecidableEq, Repr

structure Publication where
  key : MessageKey
  message : Message
  delivery : Delivery
deriving DecidableEq, Repr

structure Crossing where
  sender : Session
  receiver : Session
  callers : List Caller
  lock : Option Holder
  /-- The frames in the order in which the writer was given away. -/
  grants : List Grant
  /-- How many of the bytes that the sink has taken were carried. -/
  carried : Nat
  published : List Publication

namespace Crossing

inductive Step where
  | call (caller : Nat)
  | grant (caller : Nat)
  | write (size : Nat)
  | release
  | count (caller : Nat)
  | carry (size : Nat)
  | read
deriving DecidableEq, Repr

def between (sender receiver : Session) (orders : List (List (FrameOrder × Noise))) :
    Crossing where
  sender
  receiver
  callers := orders.map (⟨·, .idle, []⟩)
  lock := none
  grants := []
  carried := sender.channel.writer.sink.taken.length
  published := []

def writer (c : Crossing) : FrameWriter :=
  c.sender.channel.writer

def setWriter (c : Crossing) (writer : FrameWriter) : Crossing :=
  { c with sender := { c.sender with channel := { c.sender.channel with writer } } }

def setCaller (c : Crossing) (i : Nat) (caller : Caller) : Crossing :=
  { c with callers := c.callers.set i caller }

def left (c : Crossing) : Bytes :=
  match c.lock with
  | some holder => holder.left
  | none => []

def underway (c : Crossing) : Bytes :=
  c.writer.sink.taken.drop c.carried

/-- The next order of a caller goes to wait for the writer, unless the session is
closed. -/
def call (c : Crossing) (i : Nat) : Option Crossing :=
  match c.callers[i]? with
  | some ⟨(order, noise) :: orders, .idle, results⟩ =>
    if c.sender.isConnected then some (c.setCaller i ⟨orders, .waiting order noise, results⟩)
    else some (c.setCaller i ⟨orders, .idle, results ++ [(order, .error .notConnected)]⟩)
  | _ => none

/-- A caller with a frame to write holds the writer, whose chain has moved on. -/
def hold (c : Crossing) (i : Nat) (caller : Caller) (parcel : Parcel) (encryptor : Encryptor) :
    Crossing :=
  { (c.setWriter { c.writer with encryptor }).setCaller i caller with
    lock := some ⟨i, parcel.frame⟩
    grants := c.grants ++ [⟨i, parcel⟩] }

/-- A waiting caller is given the free writer, and keeps it when its order comes to
a frame. -/
def grant (c : Crossing) (i : Nat) : Option Crossing :=
  match c.lock, c.callers[i]? with
  | none, some ⟨orders, .waiting order noise, results⟩ =>
    match c.writer.pack order noise with
    | none => none
    | some (.error cause) =>
      some (c.setCaller i ⟨orders, .idle, results ++ [(order, .error (.frame cause))]⟩)
    | some (.ok (frame, encryptor)) =>
      some (c.hold i ⟨orders, .writing ⟨order, frame⟩, results⟩ ⟨order, frame⟩ encryptor)
  | _, _ => none

def fail (c : Crossing) (i : Nat) (sink : Sink) (fault : StreamFault) : Option Crossing :=
  match c.callers[i]? with
  | some ⟨orders, .writing p, results⟩ =>
    let failed := (c.setWriter { c.writer with sink, isOpen := false }).setCaller i
      ⟨orders, .idle, results ++ [(p.order, .error (.frame (.transport fault)))]⟩
    some { failed with lock := none }
  | _ => none

def write (c : Crossing) (size : Nat) : Option Crossing :=
  match c.lock with
  | none => none
  | some holder =>
    match c.writer.sink.write (holder.left.take size) with
    | (sink, none) =>
      some { c.setWriter { c.writer with sink } with
        lock := some ⟨holder.caller, holder.left.drop size⟩ }
    | (sink, some fault) => c.fail holder.caller sink fault

def release (c : Crossing) : Option Crossing :=
  match c.lock with
  | some ⟨i, []⟩ =>
    match c.writer.sink.flushFault, c.callers[i]? with
    | some fault, _ => c.fail i c.writer.sink fault
    | none, some ⟨orders, .writing p, results⟩ =>
      some { c.setCaller i ⟨orders, .counting p, results⟩ with lock := none }
    | none, _ => none
  | _ => none

def count (c : Crossing) (i : Nat) : Option Crossing :=
  match c.callers[i]? with
  | some ⟨orders, .counting p, results⟩ =>
    let counted := c.setCaller i ⟨orders, .idle, results ++ [(p.order, .ok p.frame.length)]⟩
    some { counted with
      sender := { c.sender with sent := c.sender.sent + UInt64.ofNat p.frame.length } }
  | _ => none

def carry (c : Crossing) (size : Nat) : Crossing :=
  let bytes := c.underway.take size
  { c with
    receiver := { c.receiver with channel := c.receiver.channel.arrive bytes }
    carried := c.carried + bytes.length }

def read (c : Crossing) : Crossing :=
  match c.receiver.read with
  | (.message message delivery, receiver) =>
    { c with receiver, published := c.published ++ [⟨message.key, message, delivery⟩] }
  | (.nothing, receiver) => { c with receiver }
  | (.waiting, receiver) => { c with receiver }

def step (c : Crossing) : Step → Option Crossing
  | .call i => c.call i
  | .grant i => c.grant i
  | .write size => c.write size
  | .release => c.release
  | .count i => c.count i
  | .carry size => some (c.carry size)
  | .read => some c.read

def follow (c : Crossing) : List Step → Option Crossing
  | [] => some c
  | s :: steps => (c.step s).bind (follow · steps)

end Crossing

end CipherLink
