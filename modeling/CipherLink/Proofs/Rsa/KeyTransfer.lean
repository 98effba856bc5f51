import CipherLink.Proofs.Handshake.Agreement
import Mathlib.Data.Nat.Digits.Lemmas

/-!
# Keys that are handed over

The text of a public key is all that one side hands to the other. It carries the modulus and the
exponent and nothing else, so the other side has the same key, and two sides hand over the same
text only if they have the same modulus and exponent.
-/

namespace CipherLink

namespace Rsa

theorem PublicKey.blockLength_eq (key : PublicKey) :
    key.blockLength = (Nat.digits 256 key.modulus).length := by
  have hlow := pow_blockLength_le key
  have hhigh := lt_pow_blockLength key
  have hpos : 0 < key.blockLength := by
    rcases Nat.eq_zero_or_pos key.blockLength with hzero | hpos
    · have hodd := key.supported.2.1
      rw [hzero] at hhigh
      omega
    · exact hpos
  have hle := (Nat.digits_length_le_iff (by decide) key.modulus).mpr hhigh
  have hlt := (Nat.lt_digits_length_iff (by decide) key.modulus).mpr hlow
  omega

theorem PublicKey.toText_injective : Function.Injective PublicKey.toText := by
  intro key key' h
  have hread := key.ofText?_toText
  rw [h, key'.ofText?_toText] at hread
  exact (Option.some.inj hread).symm

theorem PublicKey.toText_eq_iff {key key' : PublicKey} : key.toText = key'.toText ↔
    key.modulus = key'.modulus ∧ key.exponent = key'.exponent := by
  rw [toText_injective.eq_iff]
  obtain ⟨modulus, exponent, hsupported⟩ := key
  obtain ⟨modulus', exponent', hsupported'⟩ := key'
  rw [mk.injEq]

end Rsa

/-- What a side hands over is accepted by any other, which has the very key then and cuts its
data into chunks of the length of the modulus less the padding. Two sides hand over the same
bytes exactly if their keys have the same modulus and exponent. The ranges of both numbers are
those of every key. -/
theorem public_keys_transfer {x x' : RsaExchange} {key key' : Rsa.PrivateKey}
    (hkey : x.keyPair = some key) (hkey' : x'.keyPair = some key') :
    ∃ text text', x.publicKey = .ok text ∧ x'.publicKey = .ok text' ∧
      (KeyExchange.rsa x).publicKey = .ok text ∧
      (∀ y : RsaExchange, ∃ y', y.setPublicKey text = .ok y' ∧
        (KeyExchange.rsa y).setPublicKey text = .ok (.rsa y') ∧
        y' = { y with peerKey := some key.publicKey } ∧
        (KeyExchange.rsa y').chunkLength? =
          some ((Nat.digits 256 key.publicKey.modulus).length - 11)) ∧
      (text = text' ↔ key.publicKey.modulus = key'.publicKey.modulus ∧
        key.publicKey.exponent = key'.publicKey.exponent) := by
  have hpublic : x.publicKey = .ok key.publicKey.toText := by
    rw [RsaExchange.publicKey, hkey]
  have hpublic' : x'.publicKey = .ok key'.publicKey.toText := by
    rw [RsaExchange.publicKey, hkey']
  refine ⟨key.publicKey.toText, key'.publicKey.toText, hpublic, hpublic', hpublic, ?_,
    Rsa.PublicKey.toText_eq_iff⟩
  intro y
  have hset := y.setPublicKey_toText key.publicKey
  refine ⟨_, hset, ?_, rfl, ?_⟩
  · rw [KeyExchange.setPublicKey, hset]
    rfl
  · simp only [KeyExchange.chunkLength?, Option.map_some, Rsa.PublicKey.chunkLength,
      Rsa.PublicKey.blockLength_eq, Rsa.paddingOverhead]

def smallKey : Rsa.PrivateKey := ⟨⟨15, 3, by decide⟩, 3, 3, 5, by decide⟩

def otherSmallKey : Rsa.PrivateKey := ⟨⟨21, 5, by decide⟩, 5, 3, 7, by decide⟩

/-- A modulus of one byte leaves no room for data, and the texts of different keys differ. -/
theorem public_keys_transfer_small :
    let x : RsaExchange := ⟨4, .ephemeral, some smallKey, none⟩
    let x' : RsaExchange := ⟨5, .ephemeral, some otherSmallKey, none⟩
    x.keyPair = some smallKey ∧ x'.keyPair = some otherSmallKey ∧
    ∃ text text', x.publicKey = .ok text ∧ x'.publicKey = .ok text' ∧ text ≠ text' ∧
      ∃ y', RsaExchange.setPublicKey ⟨5, .ephemeral, some otherSmallKey, none⟩ text = .ok y' ∧
        y'.peerKey = some smallKey.publicKey ∧ (KeyExchange.rsa y').chunkLength? = some 0 := by
  intro x x'
  have hkey : x.keyPair = some smallKey := rfl
  have hkey' : x'.keyPair = some otherSmallKey := rfl
  obtain ⟨text, text', hpublic, hpublic', -, hset, hsame⟩ := public_keys_transfer hkey hkey'
  refine ⟨hkey, hkey', text, text', hpublic, hpublic', ?_, ?_⟩
  · intro heq
    have hmodulus := (hsame.mp heq).1
    exact absurd hmodulus (by decide)
  · obtain ⟨y', hy', -, rfl, hchunk⟩ := hset ⟨5, .ephemeral, some otherSmallKey, none⟩
    exact ⟨_, hy', rfl, hchunk.trans (by simp [smallKey])⟩

end CipherLink
