import CipherLink.Arithmetic
import CipherLink.CryptoError
import CipherLink.Der
import CipherLink.Pem

/-!
# RSA keys

A key is valid by construction: the public part is a modulus and an exponent in
the supported ranges, and the exponents of a key pair undo each other modulo one
less than either factor of the modulus.

The factors of a fresh key are random primes of half the length each, with the two highest
bits set, so that the modulus has exactly the length asked for.

A public key is written as the sequence of its modulus and exponent. A private
key is written as the version 0, the public part, the exponent, the two factors
and three numbers that follow from them, which are not checked when it is read.
-/

namespace CipherLink.Rsa

def bitLength (n : Nat) : Nat :=
  if n = 0 then 0 else n.log2 + 1

def greatestBits : Nat := 4096

def Supported (modulus exponent : Nat) : Prop :=
  bitLength modulus ≤ greatestBits ∧ modulus % 2 = 1 ∧ exponent % 2 = 1 ∧ 3 ≤ exponent ∧
    exponent < 1 <<< 33 ∧ exponent < modulus

instance (modulus exponent : Nat) : Decidable (Supported modulus exponent) := by
  unfold Supported
  infer_instance

structure PublicKey where
  modulus : Nat
  exponent : Nat
  supported : Supported modulus exponent
deriving DecidableEq

namespace PublicKey

def ofParts? (modulus exponent : Nat) : Option PublicKey :=
  if h : Supported modulus exponent then some ⟨modulus, exponent, h⟩ else none

def blockLength (key : PublicKey) : Nat :=
  (bitLength key.modulus + 7) / 8

def raise (key : PublicKey) (n : Nat) : Nat :=
  Modular.powMod n key.exponent key.modulus

end PublicKey

/-- Two factors and an exponent that undoes the public one. -/
def Undoes (key : PublicKey) (exponent p q : Nat) : Prop :=
  p * q = key.modulus ∧ 1 < p ∧ 1 < q ∧ key.exponent * exponent % (p - 1) = 1 ∧
    key.exponent * exponent % (q - 1) = 1

instance (key : PublicKey) (exponent p q : Nat) : Decidable (Undoes key exponent p q) := by
  unfold Undoes
  infer_instance

structure PrivateKey where
  publicKey : PublicKey
  exponent : Nat
  p : Nat
  q : Nat
  undoes : Undoes publicKey exponent p q
deriving DecidableEq

namespace PrivateKey

def ofParts? (modulus publicExponent exponent p q : Nat) : Option PrivateKey := do
  let key ← PublicKey.ofParts? modulus publicExponent
  if h : Undoes key exponent p q then some ⟨key, exponent, p, q, h⟩ else none

/-- The root of a number under the key, found modulo each factor if the factors
have no divisor in common. -/
def root (key : PrivateKey) (n : Nat) : Nat :=
  match Modular.inverse? key.q key.p with
  | some qInverse =>
    let modP := Modular.powMod n (key.exponent % (key.p - 1)) key.p
    let modQ := Modular.powMod n (key.exponent % (key.q - 1)) key.q
    (modP + (key.p - modQ % key.p)) * qInverse % key.p * key.q + modQ
  | none => Modular.powMod n key.exponent key.publicKey.modulus

end PrivateKey

def freshExponent : Nat := 65537

/-- The shortest modulus for which there are primes enough. -/
def fewestBits : Nat := 12

def tries : Nat := 1000

def tooFewPrimes : CryptoError :=
  .keyGeneration "too few primes of given length to generate an RSA key"

/-- The key pair of two primes, unless other primes have to be taken. -/
def keyOfPrimes? (bits p q : Nat) : Option (Except CryptoError PrivateKey) :=
  if p = q ∨ bitLength (p * q) ≠ bits then none
  else do
    let exponent ← Modular.inverse? freshExponent ((p - 1) * (q - 1))
    match PrivateKey.ofParts? (p * q) freshExponent exponent p q with
    | some key => some (.ok key)
    | none => some (.error (.keyGeneration "invalid modulus"))

def searchKey (bits : Nat) (noise : Noise) : Nat → Except CryptoError PrivateKey
  | 0 => .error tooFewPrimes
  | n + 1 =>
    let found := do
      let p ← Prime.search (bits / 2) noise.even
      let q ← Prime.search (bits - bits / 2) noise.odd
      keyOfPrimes? bits p q
    match found with
    | some outcome => outcome
    | none => searchKey bits (noise.drop bits) n

def generate (bits : Nat) (noise : Noise) : Except CryptoError PrivateKey :=
  if bits < fewestBits then .error tooFewPrimes
  else if greatestBits < bits then .error (.keyGeneration "modulus too large")
  else searchKey bits noise tries

namespace PublicKey

def label : String := "RSA PUBLIC KEY"

def toText (key : PublicKey) : Bytes :=
  Pem.encode label (Der.sequence [Der.integer key.modulus, Der.integer key.exponent])

def ofText? (text : Bytes) : Option PublicKey := do
  match ← Der.readIntegerSequence? 2 (← Pem.decode? label text) with
  | [modulus, exponent] => ofParts? modulus exponent
  | _ => none

end PublicKey

namespace PrivateKey

def label : String := "RSA PRIVATE KEY"

def toText (key : PrivateKey) : Bytes :=
  let numbers := [0, key.publicKey.modulus, key.publicKey.exponent, key.exponent, key.p, key.q,
    key.exponent % (key.p - 1), key.exponent % (key.q - 1),
    (Modular.inverse? key.q key.p).getD 0]
  Pem.encode label (Der.sequence (numbers.map Der.integer))

def ofText? (text : Bytes) : Option PrivateKey := do
  match ← Der.readIntegerSequence? 9 (← Pem.decode? label text) with
  | [0, modulus, publicExponent, exponent, p, q, _, _, _] =>
    ofParts? modulus publicExponent exponent p q
  | _ => none

end PrivateKey

end CipherLink.Rsa
