import CipherLink.Aes.Cipher
import CipherLink.Algorithm.Identifier
import CipherLink.Cbor.Record
import CipherLink.CryptoError

/-!
# Transforms

A transform carries one direction of a link, under a session key and initialization
vector that one side draws and sends to the other. It takes buffers of whole blocks,
and with AES it chains each block to the ciphertext block before it, over the
end of a buffer into the next one. A buffer that does not consist of whole
blocks is refused, is left as it was and leaves the chain as it was.
-/

namespace CipherLink

structure KeyPackage where
  key : Bytes
  iv : Bytes
deriving DecidableEq, Repr

def KeyPackage.redacted (package : KeyPackage) : String :=
  let lengthOf (bs : Bytes) : String := "[" ++ toString bs.length ++ " bytes]"
  "KeyPackage \x7b symmetric_key: " ++ lengthOf package.key ++ ", initialization_vector: " ++
    lengthOf package.iv ++ " \x7d"

open Cbor in
instance : Recorded KeyPackage where
  schema := [⟨"symmetric_key", .octets, false⟩, ⟨"initialization_vector", .octets, false⟩]
  values package := [.octets package.key, .octets package.iv]
  ofValues?
    | [.octets key, .octets iv] => some ⟨key, iv⟩
    | _ => none

inductive Cipher where
  | identity
  | aes (size : Aes.KeySize) (keys : Aes.RoundKeys)
deriving DecidableEq, Repr

namespace Cipher

/-- The length of the blocks that buffers consist of, also of those that are not
encrypted. -/
def blockLength : Nat := Aes.Block.length

def name : Cipher → String
  | .identity => "Identity"
  | .aes size _ => "Aes" ++ toString size.bits

end Cipher

namespace Chain

open Aes (Block)

def encrypt (f : Block → Block) (last : Block) : List Block → List Block × Block
  | [] => ([], last)
  | x :: xs =>
    let y := f (x.add last)
    let (ys, last) := encrypt f y xs
    (y :: ys, last)

def decrypt (f : Block → Block) (last : Block) : List Block → List Block × Block
  | [] => ([], last)
  | y :: ys =>
    let x := (f y).add last
    let (xs, last) := decrypt f y ys
    (x :: xs, last)

end Chain

def wholeBlocks (bs : Bytes) : Except CryptoError (List Aes.Block) :=
  match Aes.Block.ofBytes? bs with
  | some blocks => .ok blocks
  | none => .error (.unalignedBuffer bs.length Cipher.blockLength)

structure Encryptor where
  cipher : Cipher
  chain : Aes.Block
deriving DecidableEq, Repr

structure Decryptor where
  cipher : Cipher
  chain : Aes.Block
deriving DecidableEq, Repr

namespace Encryptor

def name (t : Encryptor) : String := "EncryptTransform::" ++ t.cipher.name

def apply (t : Encryptor) (bs : Bytes) : Except CryptoError (Bytes × Encryptor) := do
  let blocks ← wholeBlocks bs
  match t.cipher with
  | .identity => return (bs, t)
  | .aes _ keys =>
    let (blocks, chain) := Chain.encrypt keys.encrypt t.chain blocks
    return (blocks.flatMap Aes.Block.toBytes, { t with chain })

end Encryptor

namespace Decryptor

def name (t : Decryptor) : String := "DecryptTransform::" ++ t.cipher.name

def apply (t : Decryptor) (bs : Bytes) : Except CryptoError (Bytes × Decryptor) := do
  let blocks ← wholeBlocks bs
  match t.cipher with
  | .identity => return (bs, t)
  | .aes _ keys =>
    let (blocks, chain) := Chain.decrypt keys.decrypt t.chain blocks
    return (blocks.flatMap Aes.Block.toBytes, { t with chain })

end Decryptor

namespace SymmetricAlgorithm

def checkPackage (a : SymmetricAlgorithm) (package : KeyPackage) : Except CryptoError Unit :=
  if package.key.length ≠ a.keyLength then
    .error (.invalidKeyPackage ("key is " ++ toString package.key.length ++ " bytes, expected " ++
      toString a.keyLength))
  else if package.iv.length ≠ a.ivLength then
    .error (.invalidKeyPackage ("iv is " ++ toString package.iv.length ++ " bytes, expected " ++
      toString a.ivLength))
  else .ok ()

def keyed (a : SymmetricAlgorithm) (package : KeyPackage) :
    Except CryptoError (Cipher × Aes.Block) := do
  a.checkPackage package
  match a with
  | .identity => return (.identity, .zero)
  | .aes bits =>
    let keys := do
      let size ← Aes.KeySize.ofBits? bits.toNat
      let keys ← Aes.RoundKeys.ofKey? size package.key
      let iv ← (← Aes.Block.ofBytes? package.iv).head?
      return (Cipher.aes size keys, iv)
    match keys with
    | some keyed => return keyed
    | none => throw (.unsupportedKeySize "AES" bits.toNat)

def encryptor (a : SymmetricAlgorithm) (package : KeyPackage) : Except CryptoError Encryptor := do
  let (cipher, chain) ← a.keyed package
  return ⟨cipher, chain⟩

def decryptor (a : SymmetricAlgorithm) (package : KeyPackage) : Except CryptoError Decryptor := do
  let (cipher, chain) ← a.keyed package
  return ⟨cipher, chain⟩

end SymmetricAlgorithm

/-- A buffer behind a call, and why the call refused it if it did. -/
structure Treated where
  buffer : Bytes
  refusal : Option CryptoError
deriving DecidableEq, Repr

def Treated.done? (t : Treated) : Option Bytes :=
  if t.refusal.isNone then some t.buffer else none

namespace Transform

def treat {τ : Type} (apply : τ → Bytes → Except CryptoError (Bytes × τ)) (t : τ)
    (buffer : Bytes) : Treated × τ :=
  match apply t buffer with
  | .ok (buffer, t) => (⟨buffer, none⟩, t)
  | .error cause => (⟨buffer, some cause⟩, t)

def treatAll {τ : Type} (apply : τ → Bytes → Except CryptoError (Bytes × τ)) (t : τ) :
    List Bytes → List Treated × τ
  | [] => ([], t)
  | buffer :: buffers =>
    let (treated, t) := treat apply t buffer
    let (others, t) := treatAll apply t buffers
    (treated :: others, t)

end Transform

end CipherLink
