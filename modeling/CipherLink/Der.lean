import CipherLink.Bytes

/-!
# Integers and sequences in DER

An item is a tag, the length of its content in the fewest bytes, and the
content. Integers are written in the fewest bytes of two's complement. Only
those from zero on are read.
-/

namespace CipherLink.Der

def integerTag : UInt8 := 0x02

def sequenceTag : UInt8 := 0x30

def digitCount (n : Nat) : Nat := n.log2 / 8 + 1

def writeLength (n : Nat) : Bytes :=
  if n < 128 then [UInt8.ofNat n]
  else UInt8.ofNat (128 + digitCount n) :: Bytes.ofNat (digitCount n) n

def item (tag : UInt8) (content : Bytes) : Bytes :=
  tag :: writeLength content.length ++ content

/-- The item of an integer; a leading zero keeps the highest bit clear. -/
def integer (n : Nat) : Bytes :=
  item integerTag (Bytes.ofNat ((n.log2 + 1) / 8 + 1) n)

def sequence (items : List Bytes) : Bytes :=
  item sequenceTag items.flatten

/-- The length in front of the bytes, which has to be written in the fewest. -/
def readLength? : Bytes → Option (Nat × Bytes)
  | [] => none
  | b :: bs =>
    if b.toNat < 128 then some (b.toNat, bs)
    else do
      let width := b.toNat - 128
      let (digits, rest) ← Bytes.split? width bs
      let n := digits.toNat
      if 128 ≤ n ∧ digitCount n = width then some (n, rest) else none

def readItem? (tag : UInt8) : Bytes → Option (Bytes × Bytes)
  | [] => none
  | b :: bs =>
    if b = tag then do
      let (length, rest) ← readLength? bs
      rest.split? length
    else none

def naturalOf? : Bytes → Option Nat
  | [] => none
  | [b] => if b.toNat < 128 then some b.toNat else none
  | b :: c :: bs =>
    if b.toNat < 128 ∧ (b = 0 → 128 ≤ c.toNat) then some (Bytes.toNat (b :: c :: bs)) else none

def readInteger? (bs : Bytes) : Option (Nat × Bytes) := do
  let (content, rest) ← readItem? integerTag bs
  return (← naturalOf? content, rest)

def readIntegers? : Nat → Bytes → Option (List Nat)
  | _, [] => some []
  | 0, _ => none
  | limit + 1, bs => do
    let (n, rest) ← readInteger? bs
    return n :: (← readIntegers? limit rest)

def readIntegerSequence? (limit : Nat) (bs : Bytes) : Option (List Nat) := do
  let (content, rest) ← readItem? sequenceTag bs
  if rest.isEmpty then readIntegers? limit content else none

end CipherLink.Der
