import CipherLink.Dialogue

/-!
# Pairs of dialogues

Two sides that talk to each other over a lossless stream. The sides take steps
in any order, given by a schedule; a step of a side that has to wait, or that is
over, changes nothing.
-/

namespace CipherLink

/-- One side: what is left of its dialogue, how far it has come, its key files and
the bytes that have arrived for it. -/
structure Side (α : Type) where
  dialogue : Dialogue α
  phase : Phase
  files : KeyFiles
  inbox : Bytes

namespace Side

variable {α : Type}

def start (files : KeyFiles) (dialogue : Dialogue α) : Side α := ⟨dialogue, .start, files, []⟩

def isOver (s : Side α) : Bool :=
  match s.dialogue with
  | .done _ | .failed _ => true
  | _ => false

def result? (s : Side α) : Option (Except HandshakeError α) :=
  match s.dialogue with
  | .done result => some (.ok result)
  | .failed cause => some (.error cause)
  | _ => none

def fail (s : Side α) (cause : HandshakeError) : Side α :=
  { s with dialogue := .failed cause, phase := .failed }

def step (s : Side α) (peerIsOver : Bool) : Side α × Bytes :=
  match s.dialogue with
  | .done _ => (s, [])
  | .failed cause => (s.fail cause, [])
  | .send bytes next =>
    if peerIsOver ∧ bytes ≠ [] then (s.fail (.transport "broken pipe"), [])
    else ({ s with dialogue := next }, bytes)
  | .flush next => ({ s with dialogue := next }, [])
  | .receive awaited n next =>
    match s.inbox.split? n with
    | some (bytes, inbox) => ({ s with dialogue := next bytes, inbox }, [])
    | none => if peerIsOver then (s.fail (.transport awaited.endText), []) else (s, [])
  | .enter phase next => ({ s with dialogue := next, phase }, [])
  | .keep files next => ({ s with dialogue := next, files }, [])

def hear (s : Side α) (bytes : Bytes) : Side α :=
  { s with inbox := s.inbox ++ bytes }

end Side

structure Pair (α β : Type) where
  left : Side α
  right : Side β

inductive Turn where
  | left
  | right
deriving DecidableEq, Repr

namespace Pair

variable {α β : Type}

def step (p : Pair α β) : Turn → Pair α β
  | .left =>
    let (left, sent) := p.left.step p.right.isOver
    ⟨left, p.right.hear sent⟩
  | .right =>
    let (right, sent) := p.right.step p.left.isOver
    ⟨p.left.hear sent, right⟩

def follow (p : Pair α β) (schedule : List Turn) : Pair α β :=
  schedule.foldl step p

def inTurns (n : Nat) : List Turn :=
  (List.replicate n [.left, .right]).flatten

end Pair

end CipherLink
