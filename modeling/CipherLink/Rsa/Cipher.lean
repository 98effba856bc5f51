import CipherLink.Bytes
import CipherLink.CryptoError
import CipherLink.Rsa.Key

/-!
# Encryption under RSA keys

Data are cut into chunks that leave room for the padding, and every chunk is
encrypted into a block of the length of the modulus. The last chunk may be
shorter; its length is known from the padding. A block is 0, 2, at least eight random
bytes other than 0, another 0, and the chunk.
-/

namespace CipherLink.Rsa

def paddingOverhead : Nat := 11

def nonZero (noise : Noise) (n : Nat) : Bytes :=
  (noise.take n).map fun b => if b = 0 then 1 else b

/-- A message of at most `block - paddingOverhead` bytes as a block. -/
def pad (block : Nat) (noise : Noise) (message : Bytes) : Bytes :=
  0 :: 2 :: (nonZero noise (block - 3 - message.length) ++ 0 :: message)

def unpad? : Bytes → Option Bytes
  | 0 :: 2 :: bs =>
    if 8 ≤ (bs.takeWhile (· != 0)).length then (bs.dropWhile (· != 0)).tail? else none
  | _ => none

theorem takeWhile_nonZero (noise : Noise) (n : Nat) (message : Bytes) :
    (nonZero noise n ++ 0 :: message).takeWhile (· != 0) = nonZero noise n := by
  rw [List.takeWhile_append_of_pos]
  · simp
  · intro b hb
    simp only [nonZero, List.mem_map] at hb
    obtain ⟨c, -, rfl⟩ := hb
    by_cases hc : c = 0 <;> simp [hc]

theorem dropWhile_nonZero (noise : Noise) (n : Nat) (message : Bytes) :
    (nonZero noise n ++ 0 :: message).dropWhile (· != 0) = 0 :: message := by
  rw [List.dropWhile_append_of_pos]
  · simp
  · intro b hb
    simp only [nonZero, List.mem_map] at hb
    obtain ⟨c, -, rfl⟩ := hb
    by_cases hc : c = 0 <;> simp [hc]

theorem unpad?_pad {block : Nat} {message : Bytes} (noise : Noise)
    (h : message.length + paddingOverhead ≤ block) :
    unpad? (pad block noise message) = some message := by
  simp only [paddingOverhead] at h
  simp only [pad, unpad?, takeWhile_nonZero, dropWhile_nonZero, List.tail?_cons]
  rw [if_pos]
  simp only [nonZero, List.length_map, Noise.length_take]
  omega

theorem length_pad {block : Nat} {message : Bytes} (noise : Noise)
    (h : message.length + paddingOverhead ≤ block) :
    (pad block noise message).length = block := by
  simp only [paddingOverhead] at h
  simp only [pad, nonZero, List.length_cons, List.length_append, List.length_map,
    Noise.length_take]
  omega

namespace PublicKey

def chunkLength (key : PublicKey) : Nat :=
  key.blockLength - paddingOverhead

def encryptBlock (key : PublicKey) (noise : Noise) (chunk : Bytes) : Bytes :=
  Bytes.ofNat key.blockLength (key.raise (pad key.blockLength noise chunk).toNat)

def encryptChunks (key : PublicKey) (noise : Noise) : List Bytes → Bytes
  | [] => []
  | chunk :: chunks =>
    key.encryptBlock noise chunk ++ encryptChunks key (noise.drop key.blockLength) chunks

def encrypt (key : PublicKey) (noise : Noise) (bs : Bytes) : Except CryptoError Bytes :=
  if key.chunkLength = 0 then .error (.unsupportedKeySize "RSA" (key.blockLength * 8))
  else .ok (key.encryptChunks noise (bs.chunks key.chunkLength))

end PublicKey

namespace PrivateKey

/-- The chunk of one block. A root is taken only of what is below the modulus,
and has to give the block back. -/
def decryptBlock (key : PrivateKey) (block : Bytes) : Except CryptoError Bytes :=
  let n := block.toNat
  if key.publicKey.modulus ≤ n then .error (.rsa "decryption error")
  else
    let m := key.root n
    if key.publicKey.raise m ≠ n then .error (.rsa "internal error")
    else
      match unpad? (Bytes.ofNat key.publicKey.blockLength m) with
      | some chunk => .ok chunk
      | none => .error (.rsa "decryption error")

def decryptBlocks (key : PrivateKey) : List Bytes → Except CryptoError Bytes
  | [] => .ok []
  | block :: blocks => do
    let chunk ← key.decryptBlock block
    return chunk ++ (← decryptBlocks key blocks)

def decrypt (key : PrivateKey) (bs : Bytes) : Except CryptoError Bytes :=
  let block := key.publicKey.blockLength
  if bs.length % block ≠ 0 then .error (.invalidCiphertextLength bs.length block)
  else key.decryptBlocks (bs.chunks block)

end PrivateKey

end CipherLink.Rsa
