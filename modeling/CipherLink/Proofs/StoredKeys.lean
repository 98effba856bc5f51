import CipherLink.Proofs.KeyHistories
import CipherLink.Proofs.PersistedKeys

/-!
# Stored keys of any size

A key pair is made with a modulus of as many bits as were asked for, but is read back by the
number of bytes of its modulus. So a key file can be read again where it was made for a whole
number of bytes, and never where it was not; and where it is read, the modulus may be up to
seven bits shorter than asked for.
-/

namespace CipherLink

namespace Rsa

/-- Whether a text is one of this key pair, however it is laid out. -/
def Stores (content : Bytes) (key : PrivateKey) : Prop :=
  content.utf8?.isSome ∧ PrivateKey.ofText? content = some key

/-- Whether the length asked for is that of a modulus in whole bytes. -/
def FitsBytes (bits : Nat) (key : PrivateKey) : Prop :=
  8 ∣ bits ∧ bitLength key.publicKey.modulus ≤ bits ∧ bits < bitLength key.publicKey.modulus + 8

instance (bits : Nat) (key : PrivateKey) : Decidable (FitsBytes bits key) := by
  unfold FitsBytes
  infer_instance

def toldBits (bits : Nat) : Nat := (bits + 7) / 8 * 8

variable {bits : Nat} {path : String} {files : KeyFiles} {content : Bytes} {key : PrivateKey}

theorem blockLength_eq_iff : key.publicKey.blockLength * 8 = bits ↔ FitsBytes bits key := by
  rw [PublicKey.blockLength, FitsBytes]
  omega

theorem fitsBytes_iff (hbytes : 8 ∣ bitLength key.publicKey.modulus) :
    FitsBytes bits key ↔ bitLength key.publicKey.modulus = bits := by
  rw [FitsBytes]
  omega

theorem fitsBytes_of_bitLength (hlength : bitLength key.publicKey.modulus = bits) :
    FitsBytes bits key ↔ 8 ∣ bits := by
  rw [FitsBytes]
  omega

theorem obtain_of_stores (h : files.read? path = some content) (hstores : Stores content key)
    (bits : Nat) (noise : Noise) :
    obtain bits (.persisted path) files noise = (if FitsBytes bits key then .ok key else
      .error (.keySizeMismatch bits (toldBits (bitLength key.publicKey.modulus))), files) := by
  obtain ⟨s, hs⟩ := Option.isSome_iff_exists.mp hstores.1
  rw [KeyFiles.obtain_of_read? h bits noise]
  simp only [load, hs, Option.bind_some, hstores.2, blockLength_eq_iff]
  rfl

theorem PrivateKey.Fresh.stores (h : key.Fresh bits) : Stores key.toText key := by
  have hexponent : key.exponent.log2 < 2 ^ 32 :=
    log2_lt_of_le h.exponent.le (Nat.lt_trans key.publicKey.log2_modulus_lt (by decide))
  obtain ⟨s, hs⟩ : ∃ s, key.toText.utf8? = some s := Pem.utf8?_encode _ _
  exact ⟨by rw [hs]; rfl, PrivateKey.ofText?_toText hexponent⟩

theorem fresh_of_created {noise : Noise} {filled : KeyFiles} (h : files.read? path = none)
    (hobtain : obtain bits (.persisted path) files noise = (.ok key, filled)) :
    key.Fresh bits ∧ filled.read? path = some key.toText := by
  obtain ⟨content, hread, -, -⟩ | ⟨hcreate, hgenerate, rfl⟩ := cases_of_obtain hobtain
  · simp [h] at hread
  · exact ⟨fresh_of_generate hgenerate, KeyFiles.read?_write hcreate⟩

end Rsa

open Rsa (FitsBytes Stores bitLength toldBits)

/-- An exchange that makes a key file puts the key pair into it that it has from then on, with a
modulus of exactly the length asked for. Every later exchange of this length that finds the file
unchanged has the same key pair if the length is a whole number of bytes, and is refused
otherwise. A file with any key pair is read exactly for the length of its modulus in whole
bytes, which is the length of the modulus where that is a whole number of bytes, and is refused
for any other. -/
theorem stored_key_loads_by_bytes (path : String) :
    (∀ bits own? peer? (files made : KeyFiles) noise x,
      files.read? path = none →
      (KeyExchange.rsa ⟨bits, .persisted path, own?, peer?⟩).generateKeys files noise =
        (.ok (), x, made) →
      ∃ key, x = .rsa ⟨bits, .persisted path, some key, peer?⟩ ∧
        bitLength key.publicKey.modulus = bits ∧ made.read? path = some key.toText ∧
        ∀ own? peer? (later : KeyFiles) noise, later.read? path = made.read? path →
          let y := KeyExchange.rsa ⟨bits, .persisted path, own?, peer?⟩
          if 8 ∣ bits then
            y.generateKeys later noise =
              (.ok (), .rsa ⟨bits, .persisted path, some key, peer?⟩, later) ∧
            y.reset later noise = (.ok (), .rsa ⟨bits, .persisted path, some key, none⟩, later)
          else
            y.generateKeys later noise =
              (.error (.keySizeMismatch bits (toldBits bits)), y, later) ∧
            y.reset later noise =
              (.error (.keySizeMismatch bits (toldBits bits)),
                .rsa ⟨bits, .persisted path, own?, none⟩, later)) ∧
    ∀ (files : KeyFiles) content key, files.read? path = some content → Stores content key →
      (∀ bits noise, Rsa.obtain bits (.persisted path) files noise =
        (if FitsBytes bits key then .ok key
          else .error (.keySizeMismatch bits (toldBits (bitLength key.publicKey.modulus))),
          files)) ∧
      (8 ∣ bitLength key.publicKey.modulus →
        ∀ bits, FitsBytes bits key ↔ bitLength key.publicKey.modulus = bits) := by
  refine ⟨?_, fun files content key hread hstores =>
    ⟨Rsa.obtain_of_stores hread hstores, fun hbytes bits => Rsa.fitsBytes_iff hbytes⟩⟩
  intro bits own? peer? files made noise x hnew hcreated
  simp only [KeyExchange.generateKeys, KeyExchange.renew_eq, Prod.mk.injEq] at hcreated
  obtain ⟨houtcome, hx, hmade⟩ := hcreated
  cases hobtain : Rsa.obtain bits (.persisted path) files noise with
  | mk outcome filled =>
    simp only [hobtain] at houtcome hx hmade
    cases outcome with
    | error cause => simp [Except.map] at houtcome
    | ok key =>
      obtain ⟨hfresh, hread⟩ := Rsa.fresh_of_created hnew hobtain
      obtain rfl : filled = made := hmade
      refine ⟨key, hx.symm, hfresh.bitLength, hread, ?_⟩
      intro own? peer? later noise hlater
      have hkept := Rsa.obtain_of_stores (hlater.trans hread) hfresh.stores bits noise
      simp only [Rsa.fitsBytes_of_bitLength hfresh.bitLength, hfresh.bitLength] at hkept
      simp only [KeyExchange.reset, KeyExchange.generateKeys, KeyExchange.renew_eq,
        RsaExchange.forgetPeer, hkept]
      split
      · exact ⟨rfl, rfl⟩
      · exact ⟨rfl, rfl⟩

theorem KeyExchange.generateKeys_created {bits : Nat} {path : String} {files : KeyFiles}
    {noise : Noise} {key : Rsa.PrivateKey} (h : files.mayCreate path = true)
    (hgenerate : Rsa.generate bits noise = .ok key) :
    (rsa ⟨bits, .persisted path, none, none⟩).generateKeys files noise =
      (.ok (), .rsa ⟨bits, .persisted path, some key, none⟩, files.write path key.toText) := by
  rw [KeyExchange.generateKeys, renew_eq, KeyFiles.obtain_of_absent h hgenerate]
  rfl

/-- A key file for RSA-512 in a directory, a whole number of bytes, is read again. -/
theorem stored_key_loads_by_bytes_short :
    let x := KeyExchange.rsa ⟨512, .persisted "keys/link.pem", none, none⟩
    ∃ key made, keyStore.read? "keys/link.pem" = none ∧
      x.generateKeys keyStore shortNoise.even.even =
        (.ok (), .rsa ⟨512, .persisted "keys/link.pem", some key, none⟩, made) ∧
      x.generateKeys made shortNoise =
        (.ok (), .rsa ⟨512, .persisted "keys/link.pem", some key, none⟩, made) := by
  intro x
  obtain ⟨key, hkey, -⟩ := Option.map_eq_some_iff.mp short_generated
  have hcreated := KeyExchange.generateKeys_created keyStore_mayCreate (eq_ok_of_toOption hkey)
  have hnone := KeyFiles.read?_of_mayCreate keyStore_mayCreate
  obtain ⟨key', hsame, -, -, hlater⟩ := (stored_key_loads_by_bytes "keys/link.pem").1 512 none none
    keyStore _ _ _ hnone hcreated
  obtain rfl : key = key' := by simpa using hsame
  have hagain := hlater none none _ shortNoise rfl
  rw [if_pos (by decide)] at hagain
  exact ⟨key, _, hnone, hcreated, hagain.1⟩

def unevenNoise : Noise := (primesDrawn 32 (467 * 2 ^ 247 + 1) (935 * 2 ^ 247 + 1)).even.even

theorem uneven_generated : (Rsa.generate 513 unevenNoise).toOption.isSome := by
  decide +kernel

/-- A key file that was made for RSA-513 is refused for RSA-513 by every later call, even of the
exchange that made it. -/
theorem uneven_key_refused :
    let x := KeyExchange.rsa ⟨513, .persisted "key.pem", none, none⟩
    ∃ key made, bitLength key.publicKey.modulus = 513 ∧
      x.generateKeys .empty unevenNoise =
        (.ok (), .rsa ⟨513, .persisted "key.pem", some key, none⟩, made) ∧
      ∀ own? noise,
        let y := KeyExchange.rsa ⟨513, .persisted "key.pem", own?, none⟩
        y.generateKeys made noise = (.error (.keySizeMismatch 513 520), y, made) ∧
        y.reset made noise = (.error (.keySizeMismatch 513 520), y, made) := by
  intro x
  obtain ⟨key, hkey⟩ := Option.isSome_iff_exists.mp uneven_generated
  have hgenerate := eq_ok_of_toOption hkey
  have hfresh := Rsa.fresh_of_generate hgenerate
  have hcreate : KeyFiles.empty.mayCreate "key.pem" = true := by decide
  refine ⟨key, _, hfresh.bitLength, KeyExchange.generateKeys_created hcreate hgenerate, ?_⟩
  intro own? noise
  have hkept := Rsa.obtain_of_stores (KeyFiles.read?_write hcreate) hfresh.stores 513 noise
  rw [if_neg (by rw [Rsa.fitsBytes_of_bitLength hfresh.bitLength]; decide),
    hfresh.bitLength] at hkept
  simp only [KeyExchange.reset, KeyExchange.generateKeys, KeyExchange.renew_eq,
    RsaExchange.forgetPeer, hkept]
  exact ⟨rfl, rfl⟩

end CipherLink
