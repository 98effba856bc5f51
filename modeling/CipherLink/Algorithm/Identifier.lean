import CipherLink.Algorithm.Descriptor

/-!
# Algorithm identifiers

An algorithm is named on the command line by its family and key size, such as
`RSA-2048`, or by `None` for the identity. The name of a family is written all
in upper or all in lower case; `None` in any case. A size is written as one or more
decimal digits, with an optional plus in front. Leading zeros are allowed.
-/

namespace CipherLink.Decimal

def digit? (c : Char) : Option Nat :=
  if c.isDigit then some (c.toNat - '0'.toNat) else none

def digitsFrom? (n : Nat) : List Char → Option Nat
  | [] => some n
  | c :: cs => do
    let d ← digit? c
    digitsFrom? (n * 10 + d) cs

def digits? : List Char → Option Nat
  | [] => none
  | cs => digitsFrom? 0 cs

def natural? : List Char → Option Nat
  | '+' :: cs => digits? cs
  | cs => digits? cs

def word32? (cs : List Char) : Option UInt32 := do
  let n ← natural? cs
  if n < UInt32.size then some (UInt32.ofNat n) else none

end CipherLink.Decimal

namespace CipherLink

namespace Identifier

/-- Whether a name is `None` but for the case of its letters. -/
def isNone (s : String) : Bool :=
  s.toList.map Char.toLower == ['n', 'o', 'n', 'e']

def behind? : List Char → List Char → Option (List Char)
  | [], cs => some cs
  | _ :: _, [] => none
  | p :: ps, c :: cs => if p = c then behind? ps cs else none

/-- The key size that follows the name of a family, as `upper` or as `lower`. -/
def keySize? (upper lower : String) (s : String) : Option UInt32 :=
  match behind? upper.toList s.toList with
  | some size => Decimal.word32? size
  | none => (behind? lower.toList s.toList).bind Decimal.word32?

end Identifier

inductive KeyExchangeAlgorithm where
  | identity
  | rsa (keySize : UInt32)
deriving DecidableEq, Repr

namespace KeyExchangeAlgorithm

def namedSizes : List UInt32 := [512, 1024, 2048, 4096]

def ofIdentifier? (s : String) : Option KeyExchangeAlgorithm :=
  if Identifier.isNone s then some .identity
  else do
    let size ← Identifier.keySize? "RSA-" "rsa-" s
    if namedSizes.contains size then some (.rsa size) else none

def descriptor : KeyExchangeAlgorithm → Descriptor
  | .identity => ⟨"None", 0, 0, none⟩
  | .rsa size => ⟨"RSA-" ++ toString size, size, size, none⟩

instance : Algorithm KeyExchangeAlgorithm where
  descriptor := descriptor

end KeyExchangeAlgorithm

inductive SymmetricAlgorithm where
  | identity
  | aes (keySize : UInt32)
deriving DecidableEq, Repr

namespace SymmetricAlgorithm

def namedSizes : List UInt32 := [128, 192, 256]

def ofIdentifier? (s : String) : Option SymmetricAlgorithm :=
  if Identifier.isNone s then some .identity
  else do
    let size ← Identifier.keySize? "AES-" "aes-" s
    if namedSizes.contains size then some (.aes size) else none

def blockBits (_ : SymmetricAlgorithm) : UInt32 := 128

def keyLength : SymmetricAlgorithm → Nat
  | .identity => 0
  | .aes size => size.toNat / 8

def ivLength : SymmetricAlgorithm → Nat
  | .identity => 0
  | .aes _ => 16

def descriptor (a : SymmetricAlgorithm) : Descriptor :=
  match a with
  | .identity => ⟨"None", 0, 0, some a.blockBits⟩
  | .aes size => ⟨"AES-" ++ toString size, size, size, some a.blockBits⟩

instance : Algorithm SymmetricAlgorithm where
  descriptor := descriptor

end SymmetricAlgorithm

end CipherLink
