import CipherLink.Cbor.Record

/-!
# Algorithm descriptors

A descriptor is the record by which one side of a link offers an algorithm. Two
descriptors match when they agree in identifier, key size and strength. Among
the algorithms that both sides offer, the strongest one is selected; ties in
strength are broken by the key size and then by the identifier.
-/

namespace CipherLink

structure Descriptor where
  identifier : String
  keySize : UInt32
  strength : UInt32
  blockSize : Option UInt32
deriving DecidableEq, Repr

namespace Descriptor

/-- Agreement in all but the block size. -/
def isMatch (a b : Descriptor) : Bool :=
  a.identifier == b.identifier && a.keySize == b.keySize && a.strength == b.strength

/-- Whether `b` is preferred to `a`, or neither to the other. -/
def atMost (a b : Descriptor) : Bool :=
  if a.strength ≠ b.strength then a.strength < b.strength
  else if a.keySize ≠ b.keySize then a.keySize < b.keySize
  else a.identifier ≤ b.identifier

/-- The last of the greatest descriptors in a list. -/
def greatest? : List Descriptor → Option Descriptor
  | [] => none
  | d :: ds => some (ds.foldl (fun best d => if best.atMost d then d else best) d)

def common (ours theirs : List Descriptor) : List Descriptor :=
  ours.filter fun d => theirs.any fun r => r.isMatch d

/-- The strongest algorithm that both sides offer, as described by ours. -/
def selectStrongest (ours theirs : List Descriptor) : Option Descriptor :=
  greatest? (common ours theirs)

def render (d : Descriptor) : String :=
  d.identifier ++ " (" ++ toString d.keySize ++ " bits, strength " ++ toString d.strength ++ ")"

end Descriptor

open Cbor in
instance : Recorded Descriptor where
  schema := [
    ⟨"identifier", .text, false⟩,
    ⟨"key_size", .integer 0 0xffffffff, false⟩,
    ⟨"strength", .integer 0 0xffffffff, false⟩,
    ⟨"block_size", .integer 0 0xffffffff, true⟩]
  values d := [
    .text d.identifier,
    .integer d.keySize.toNat,
    .integer d.strength.toNat,
    match d.blockSize with
      | some size => .integer size.toNat
      | none => .absent]
  ofValues?
    | [.text identifier, .integer keySize, .integer strength, .integer size] =>
      some ⟨identifier, UInt32.ofNat keySize.toNat, UInt32.ofNat strength.toNat,
        some (UInt32.ofNat size.toNat)⟩
    | [.text identifier, .integer keySize, .integer strength, .absent] =>
      some ⟨identifier, UInt32.ofNat keySize.toNat, UInt32.ofNat strength.toNat, none⟩
    | _ => none

class Algorithm (α : Type) where
  descriptor : α → Descriptor

instance : Algorithm Descriptor where
  descriptor d := d

def Algorithm.identifier {α : Type} [Algorithm α] (a : α) : String :=
  (descriptor a).identifier

end CipherLink
