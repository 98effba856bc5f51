import CipherLink.Frame.Run

/-!
# Steps of a writer and a reader

What is done with a writer one step after another, whether it succeeds or not, and
what became of each order. A writer first makes the encrypted frame of an order, which
does not depend on the sink, and then hands it over. A frame that is packed has moved
the chain on, whatever becomes of it. Between two steps the sink may change how it
fails, so it may fail in any step.

A stream may fail for a moment while its reader stands between two frames. The reader
reports the fault, and reads on where it was.
-/

namespace CipherLink.FrameWriter

/-- The frame that a writer would put on an endless sink and the transform behind
it, or why there is none. -/
def pack (w : FrameWriter) (order : FrameOrder) (noise : Noise) :
    Option (Except FrameError (Bytes × Encryptor)) :=
  match { w with sink := .endless }.perform order noise with
  | none => none
  | some (.error cause, _) => some (.error cause)
  | some (.ok _, next) => some (.ok (next.sink.taken, next.encryptor))

def conclude (w : FrameWriter) : Except FrameError (Bytes × Encryptor) → Step
  | .error cause => (.error cause, w)
  | .ok (frame, encryptor) => w.deliver frame encryptor

end CipherLink.FrameWriter

namespace CipherLink

inductive WriterStep where
  | order (order : FrameOrder) (noise : Noise)
  | shutdown
  | turn (room : Option (Nat × StreamFault)) (flushFault shutdownFault : Option StreamFault)

/-- What became of an order: the frame that was handed to the sink, unless it was
refused before, and the result, unless it has none. -/
structure Deed where
  order : FrameOrder
  frame : Option Bytes
  result : Option (Except FrameError Nat)
deriving Repr

namespace Deed

/-- What a reader has to make of an order that was reported as carried out. -/
def acknowledged : Deed → Option ReadOutcome
  | ⟨order, _, some (.ok size)⟩ => some (order.outcome size)
  | _ => none

/-- What a reader may make of a frame that was reported as failed. -/
def failed : Deed → Option ReadOutcome
  | ⟨order, some frame, some (.error _)⟩ => some (order.outcome frame.length)
  | _ => none

def parcel? (deed : Deed) : Option Parcel :=
  deed.frame.map (⟨deed.order, ·⟩)

/-- Whether an order was refused: it failed, and not at the sink. -/
def isRefused (deed : Deed) : Bool :=
  match deed.result with
  | some (.error (.transport _)) => false
  | some (.error _) => true
  | some (.ok _) | none => false

end Deed

namespace FrameWriter

def frame? (w : FrameWriter) (order : FrameOrder) (noise : Noise) : Option Bytes :=
  match w.pack order noise with
  | some (.ok (frame, _)) => some frame
  | _ => none

/-- The writer behind a step. An order without an answer leaves it as it was. -/
def step (w : FrameWriter) : WriterStep → FrameWriter
  | .order order noise =>
    match w.perform order noise with
    | some (_, next) => next
    | none => w
  | .shutdown => w.shutdown
  | .turn room flushFault shutdownFault =>
    { w with sink := { w.sink with room, flushFault, shutdownFault } }

def deed? (w : FrameWriter) : WriterStep → Option Deed
  | .order order noise =>
    some ⟨order, w.frame? order noise, (w.perform order noise).map Prod.fst⟩
  | .shutdown | .turn _ _ _ => none

def after (w : FrameWriter) (steps : List WriterStep) : FrameWriter :=
  steps.foldl step w

def deeds (w : FrameWriter) : List WriterStep → List Deed
  | [] => []
  | step :: steps => (w.deed? step).toList ++ (w.step step).deeds steps

def unrefused (w : FrameWriter) : List WriterStep → List WriterStep
  | [] => []
  | step :: steps =>
    let others := (w.step step).unrefused steps
    if (w.deed? step).any Deed.isRefused then others else step :: others

end FrameWriter

/-- The outcomes of reads with the reports of the faults that come in front of each of
them, up to the one that closes the reader. -/
def ReadOutcome.reports : List (List StreamFault) → List ReadOutcome → List ReadOutcome
  | [], outcomes => outcomes
  | _, [] => []
  | faults :: gaps, outcome :: outcomes =>
    faults.map (fun fault => .error (.transport fault)) ++ outcome ::
      if outcome.keepsOpen then reports gaps outcomes else outcomes

def Source.front (source rest : Source) : Source :=
  source.grains.take (source.grains.length - rest.grains.length)

/-- The stream of a reader, with faults wherever one of its next reads begins, up to the
one that closes it. -/
def FrameReader.interrupted (r : FrameReader) : List (List StreamFault) → Source
  | [] => r.source
  | faults :: gaps =>
    faults.map .fault ++
      match r.readNext with
      | .outcome outcome next =>
        if outcome.keepsOpen then r.source.front next.source ++ next.interrupted gaps
        else r.source
      | .waiting | .broken => r.source

end CipherLink
