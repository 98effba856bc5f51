/-!
# Failures of cryptographic operations
-/

namespace CipherLink

inductive CryptoError where
  | keyGeneration (detail : String)
  | keyStorage (detail : String)
  | keySizeMismatch (expected actual : Nat)
  | invalidPublicKey (detail : String)
  | missingPublicKey
  | missingPrivateKey
  | invalidCiphertextLength (length block : Nat)
  | rsa (detail : String)
  | unsupportedKeySize (algorithm : String) (bits : Nat)
  | invalidKeyPackage (detail : String)
  | unalignedBuffer (length block : Nat)
deriving DecidableEq, Repr

def CryptoError.message : CryptoError → String
  | .keyGeneration detail => "key generation failed: " ++ detail
  | .keyStorage detail => "key storage failed: " ++ detail
  | .keySizeMismatch expected actual =>
    "stored key is " ++ toString actual ++ " bits, expected " ++ toString expected
  | .invalidPublicKey detail => "invalid public key: " ++ detail
  | .missingPublicKey => "peer public key not set"
  | .missingPrivateKey => "key pair not generated"
  | .invalidCiphertextLength length block =>
    "ciphertext length " ++ toString length ++ " is not a multiple of the " ++ toString block ++
      "-byte modulus"
  | .rsa detail => "rsa operation failed: " ++ detail
  | .unsupportedKeySize algorithm bits =>
    algorithm ++ " does not support " ++ toString bits ++ "-bit keys"
  | .invalidKeyPackage detail => "invalid key package: " ++ detail
  | .unalignedBuffer length block =>
    "buffer length " ++ toString length ++ " is not a multiple of the " ++ toString block ++
      "-byte block"

def CryptoError.kind : CryptoError → String
  | .keyGeneration _ => "KeyGeneration"
  | .keyStorage _ => "KeyStorage"
  | .keySizeMismatch _ _ => "KeySizeMismatch"
  | .invalidPublicKey _ => "InvalidPublicKey"
  | .missingPublicKey => "MissingPublicKey"
  | .missingPrivateKey => "MissingPrivateKey"
  | .invalidCiphertextLength _ _ => "InvalidCiphertextLength"
  | .rsa _ => "Rsa"
  | .unsupportedKeySize _ _ => "UnsupportedKeySize"
  | .invalidKeyPackage _ => "InvalidKeyPackage"
  | .unalignedBuffer _ _ => "UnalignedBuffer"

end CipherLink
