import CipherLink.Algorithm.Identifier
import CipherLink.KeyFile
import CipherLink.Rsa.Cipher

/-!
# Key exchange

The state of the algorithm that protects a handshake. What is sent is encrypted
under the public key of the other side, and what arrives is decrypted with the
key pair of this side; without encryption there are no keys.

A key exchange is called any number of times and in any order. A call that obtains a key
pair finds the key files as they are then, whoever wrote them, and draws its own noise.
-/

namespace CipherLink

structure RsaExchange where
  bits : Nat
  lifetime : KeyLifetime
  keyPair : Option Rsa.PrivateKey
  peerKey : Option Rsa.PublicKey
deriving DecidableEq

inductive KeyExchange where
  | identity
  | rsa (exchange : RsaExchange)
deriving DecidableEq

namespace RsaExchange

/-- Obtains a key pair; a failure leaves the keys as they were. -/
def renew (x : RsaExchange) (files : KeyFiles) (noise : Noise) :
    Except CryptoError Unit × RsaExchange × KeyFiles :=
  match Rsa.obtain x.bits x.lifetime files noise with
  | (.ok key, files) => (.ok (), { x with keyPair := some key }, files)
  | (.error e, files) => (.error e, x, files)

def forgetPeer (x : RsaExchange) : RsaExchange :=
  { x with peerKey := none }

def publicKey (x : RsaExchange) : Except CryptoError Bytes :=
  match x.keyPair with
  | some key => .ok key.publicKey.toText
  | none => .error .missingPrivateKey

def setPublicKey (x : RsaExchange) (text : Bytes) : Except CryptoError RsaExchange :=
  match text.utf8? with
  | none => .error (.invalidPublicKey "not utf-8")
  | some _ =>
    match Rsa.PublicKey.ofText? text with
    | some key => .ok { x with peerKey := some key }
    | none => .error (.invalidPublicKey "malformed key")

def encrypt (x : RsaExchange) (noise : Noise) (bs : Bytes) : Except CryptoError Bytes :=
  match x.peerKey with
  | some key => key.encrypt noise bs
  | none => .error .missingPublicKey

def decrypt (x : RsaExchange) (bs : Bytes) : Except CryptoError Bytes :=
  match x.keyPair with
  | some key => key.decrypt bs
  | none => .error .missingPrivateKey

end RsaExchange

namespace KeyExchange

def start (algorithm : KeyExchangeAlgorithm) (lifetime : KeyLifetime) : KeyExchange :=
  match algorithm with
  | .identity => .identity
  | .rsa bits => .rsa ⟨bits.toNat, lifetime, none, none⟩

def bits? : KeyExchange → Option Nat
  | .identity => none
  | .rsa x => some x.bits

def generateKeys (x : KeyExchange) (files : KeyFiles) (noise : Noise) :
    Except CryptoError Unit × KeyExchange × KeyFiles :=
  match x with
  | .identity => (.ok (), .identity, files)
  | .rsa x =>
    let (outcome, x, files) := x.renew files noise
    (outcome, .rsa x, files)

def reset (x : KeyExchange) (files : KeyFiles) (noise : Noise) :
    Except CryptoError Unit × KeyExchange × KeyFiles :=
  match x with
  | .identity => (.ok (), .identity, files)
  | .rsa x => generateKeys (.rsa x.forgetPeer) files noise

def publicKey : KeyExchange → Except CryptoError Bytes
  | .identity => .ok []
  | .rsa x => x.publicKey

def setPublicKey (x : KeyExchange) (text : Bytes) : Except CryptoError KeyExchange :=
  match x with
  | .identity => .ok .identity
  | .rsa x => (x.setPublicKey text).map .rsa

def encrypt (x : KeyExchange) (noise : Noise) (bs : Bytes) : Except CryptoError Bytes :=
  match x with
  | .identity => .ok bs
  | .rsa x => x.encrypt noise bs

def decrypt (x : KeyExchange) (bs : Bytes) : Except CryptoError Bytes :=
  match x with
  | .identity => .ok bs
  | .rsa x => x.decrypt bs

def chunkLength? : KeyExchange → Option Nat
  | .identity => none
  | .rsa x => x.peerKey.map Rsa.PublicKey.chunkLength

inductive Call where
  | generateKeys (files : KeyFiles) (noise : Noise)
  | reset (files : KeyFiles) (noise : Noise)
  | setPublicKey (text : Bytes)
  | publicKey
  | chunkLength
  | encrypt (noise : Noise) (bs : Bytes)
  | decrypt (bs : Bytes)

inductive Answer where
  | done (outcome : Except CryptoError Unit)
  | bytes (outcome : Except CryptoError Bytes)
  | length (chunk? : Option Nat)

def call (x : KeyExchange) : Call → Answer × KeyExchange
  | .generateKeys files noise =>
    let (outcome, x, _) := x.generateKeys files noise
    (.done outcome, x)
  | .reset files noise =>
    let (outcome, x, _) := x.reset files noise
    (.done outcome, x)
  | .setPublicKey text =>
    match x.setPublicKey text with
    | .ok x => (.done (.ok ()), x)
    | .error e => (.done (.error e), x)
  | .publicKey => (.bytes x.publicKey, x)
  | .chunkLength => (.length x.chunkLength?, x)
  | .encrypt noise bs => (.bytes (x.encrypt noise bs), x)
  | .decrypt bs => (.bytes (x.decrypt bs), x)

def after (x : KeyExchange) (calls : List Call) : KeyExchange :=
  calls.foldl (fun x call => (x.call call).2) x

end KeyExchange

end CipherLink
