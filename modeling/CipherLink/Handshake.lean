import CipherLink.Config
import CipherLink.Dialogue
import CipherLink.Frame
import CipherLink.KeyExchange
import CipherLink.Transform

/-!
# Handshakes

Both sides run the same dialogue. Each stage writes first and then reads: the
key exchanges offered in plain text, the public keys, the symmetric algorithms
offered and the key packages, the last two under the key exchange selected.

Every field is its length in four bytes and its content. A list of offers is the
number of offers in four bytes and a field for each.
-/

namespace CipherLink

structure Agreement where
  keyExchange : Descriptor
  symmetric : Descriptor
  /-- The block size of frames in bytes. -/
  block : Nat
deriving DecidableEq, Repr

/-- What a handshake ends in. Each direction is keyed by the package of the side
that writes it. -/
structure Link extends Agreement where
  encryptor : Encryptor
  decryptor : Decryptor
deriving DecidableEq

/-- One side of a handshake: how it is configured, the key files that it finds
and what it draws at random. -/
structure Party where
  config : LinkConfig
  files : KeyFiles
  noise : Noise

def SymmetricAlgorithm.drawPackage (a : SymmetricAlgorithm) (noise : Noise) : KeyPackage :=
  ⟨noise.take a.keyLength, (noise.drop a.keyLength).take a.ivLength⟩

namespace Handshake

def maxOffers : Nat := 256

def numberLength : Nat := 4

def sendNumber (n : Nat) : Dialogue Unit :=
  if Frame.greatestLength < n then .failed (.fieldTooLarge n Frame.greatestLength)
  else .send (Bytes.ofNat numberLength n) (.done ())

def sendField (content : Bytes) : Dialogue Unit := do
  sendNumber content.length
  .send content (.flush (.done ()))

def receiveNumber (limit : Nat) : Dialogue Nat :=
  .receive .number numberLength fun bytes =>
    let n := bytes.toInt
    if n < 0 then .failed (.negativeLength n)
    else if limit < n.toNat then .failed (.fieldTooLarge n.toNat limit)
    else .done n.toNat

def receiveField (limit : Nat) : Dialogue Bytes := do
  let length ← receiveNumber limit
  .receive .content length .done

def decode {α : Type} [Recorded α] (bs : Bytes) : Dialogue α :=
  match Recorded.decode bs with
  | .ok a => .done a
  | .error fault => .failed (.protocol fault.name)

def sendEach (x : KeyExchange) (noise : Noise) : List Descriptor → Dialogue Unit
  | [] => .done ()
  | offer :: offers => do
    let record ← Dialogue.ofCrypto (x.encrypt noise.even (Recorded.encode offer))
    sendField record
    sendEach x noise.odd offers

def sendOffers (x : KeyExchange) (noise : Noise) (offers : List Descriptor) : Dialogue Unit := do
  sendNumber offers.length
  sendEach x noise offers

def receiveEach (x : KeyExchange) (limit : Nat) : Nat → Dialogue (List Descriptor)
  | 0 => .done []
  | n + 1 => do
    let record ← receiveField limit
    let offer ← decode (← Dialogue.ofCrypto (x.decrypt record))
    return offer :: (← receiveEach x limit n)

def receiveOffers (x : KeyExchange) (limit : Nat) : Dialogue (List Descriptor) := do
  receiveEach x limit (← receiveNumber maxOffers)

def select {α : Type} [Algorithm α] (stage : Stage) (container : Container α) (x : KeyExchange)
    (limit : Nat) (noise : Noise) : Dialogue α := do
  sendOffers x noise container.supported
  let theirs ← receiveOffers x limit
  match container.selectStrongest theirs with
  | some a => return a
  | none => .failed (.noCommonAlgorithm stage)

def obtainKeys (p : Party) (a : KeyExchangeAlgorithm) (noise : Noise) : Dialogue KeyExchange :=
  let (outcome, x, files) :=
    (KeyExchange.start a p.config.keyLifetime).generateKeys p.files noise
  .keep files (Dialogue.ofCrypto (outcome.map fun _ => x))

def exchangeKeys (p : Party) (a : KeyExchangeAlgorithm) (noise : Noise) :
    Dialogue KeyExchange := do
  let x ← obtainKeys p a noise
  let own ← Dialogue.ofCrypto x.publicKey
  sendField own
  let theirs ← receiveField p.config.maxField
  Dialogue.ofCrypto (x.setPublicKey theirs)

def exchangePackages (x : KeyExchange) (own : KeyPackage) (limit : Nat) (noise : Noise) :
    Dialogue KeyPackage := do
  let record ← Dialogue.ofCrypto (x.encrypt noise (Recorded.encode own))
  sendField record
  let theirs ← receiveField limit
  decode (← Dialogue.ofCrypto (x.decrypt theirs))

def blockBytes (a : SymmetricAlgorithm) : Dialogue Nat :=
  match Frame.blockBytes? a.blockBits.toNat with
  | some block => .done block
  | none => .failed (.blockSizeTooSmall (a.blockBits.toNat / 8))

def dialogue (p : Party) : Dialogue Link := do
  let limit := p.config.maxField
  let ⟨keyNoise, offerNoise, drawNoise, packageNoise⟩ :=
    (p.noise.even.even, p.noise.even.odd, p.noise.odd.even, p.noise.odd.odd)
  let a ← select .keyExchange p.config.keyExchange .identity limit offerNoise
  .enter .keyExchangeSelected (.done ())
  let x ← exchangeKeys p a keyNoise
  let s ← select .symmetric p.config.symmetric x limit offerNoise
  .enter .offersExchanged (.done ())
  let block ← blockBytes s
  let own := s.drawPackage drawNoise
  let theirs ← exchangePackages x own limit packageNoise
  .enter .keysExchanged (.done ())
  let encryptor ← Dialogue.ofCrypto (s.encryptor own)
  let decryptor ← Dialogue.ofCrypto (s.decryptor theirs)
  .enter .ready (.done ⟨⟨a.descriptor, s.descriptor, block⟩, encryptor, decryptor⟩)

def negotiate (p : Party) (source : Source) (sink : Sink) : Dialogue.Ended Link :=
  (dialogue p).run p.config.handshakeTimeout .start p.files source sink

/-- Runs the handshake with a stream on which only the first `n` operations come to
an end in time. -/
def negotiateWithin (p : Party) (n : Nat) (source : Source) (sink : Sink) : Dialogue.Ended Link :=
  ((dialogue p).expire p.config.handshakeTimeout n).run p.config.handshakeTimeout .start p.files
    source sink

end Handshake

end CipherLink
