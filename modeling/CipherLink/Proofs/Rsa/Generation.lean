import CipherLink.Proofs.KeyFiles
import CipherLink.Proofs.Rsa.KeyText
import CipherLink.Rsa.Key

/-!
# Key pairs that are generated

The modulus of a key pair has exactly the length that was asked for, whatever primes
the search came upon, and its exponent is below the modulus. So the key pair is read
back from a file, as one of this length and of no other.
-/

namespace CipherLink

theorem Modular.inverse?_lt {a m x : Nat} (hm : 0 < m) (h : inverse? a m = some x) : x < m := by
  have hlt := Int.emod_lt_of_pos (euclid (a % m) m 1 0) (Int.natCast_pos.mpr hm)
  simp only [inverse?] at h
  split at h
  · obtain rfl := Option.some.inj h
    omega
  · simp at h

namespace Rsa

theorem PublicKey.blockLength_mul_eight {key : PublicKey} {bits : Nat}
    (h : bitLength key.modulus = bits) (hbytes : 8 ∣ bits) : key.blockLength * 8 = bits := by
  rw [blockLength, h]
  omega

theorem PrivateKey.of_ofParts? {modulus publicExponent exponent p q : Nat} {key : PrivateKey}
    (h : ofParts? modulus publicExponent exponent p q = some key) :
    key.publicKey.modulus = modulus ∧ key.exponent = exponent ∧ key.p = p ∧ key.q = q := by
  obtain ⟨publicKey, hpublic, h⟩ := Option.bind_eq_some_iff.mp h
  rw [PublicKey.ofParts?] at hpublic
  split at hpublic
  · obtain rfl := Option.some.inj hpublic
    split at h
    · obtain rfl := Option.some.inj h
      exact ⟨rfl, rfl, rfl, rfl⟩
    · simp at h
  · simp at hpublic

/-- Whether a key pair has a modulus of this length and an exponent below it. -/
structure PrivateKey.Fresh (key : PrivateKey) (bits : Nat) : Prop where
  bitLength : bitLength key.publicKey.modulus = bits
  exponent : key.exponent < key.publicKey.modulus

theorem fresh_of_keyOfPrimes? {bits p q : Nat} {key : PrivateKey}
    (h : keyOfPrimes? bits p q = some (.ok key)) : key.Fresh bits := by
  rw [keyOfPrimes?] at h
  split at h
  · simp at h
  · next hlength =>
    obtain ⟨exponent, hinverse, h⟩ := Option.bind_eq_some_iff.mp h
    split at h
    · next made hparts =>
      obtain rfl : made = key := Except.ok.inj (Option.some.inj h)
      obtain ⟨hmodulus, hexponent, rfl, rfl⟩ := PrivateKey.of_ofParts? hparts
      obtain ⟨-, hp, hq, -, -⟩ := made.undoes
      have hpositive : 0 < (made.p - 1) * (made.q - 1) := Nat.mul_pos (by omega) (by omega)
      have hless := Modular.inverse?_lt hpositive hinverse
      have hbelow : (made.p - 1) * (made.q - 1) ≤ made.p * made.q :=
        Nat.mul_le_mul (Nat.sub_le _ _) (Nat.sub_le _ _)
      refine ⟨?_, by omega⟩
      rw [hmodulus]
      by_contra hne
      exact hlength (.inr hne)
    · simp at h

theorem fresh_of_searchKey {bits : Nat} {noise : Noise} {tries : Nat} {key : PrivateKey}
    (h : searchKey bits noise tries = .ok key) : key.Fresh bits := by
  induction tries generalizing noise with
  | zero => simp [searchKey] at h
  | succ tries ih =>
    simp only [searchKey] at h
    split at h
    · next hfound =>
      rw [h] at hfound
      obtain ⟨p, -, hfound⟩ := Option.bind_eq_some_iff.mp hfound
      obtain ⟨q, -, hfound⟩ := Option.bind_eq_some_iff.mp hfound
      exact fresh_of_keyOfPrimes? hfound
    · exact ih h

theorem fresh_of_generate {bits : Nat} {noise : Noise} {key : PrivateKey}
    (h : generate bits noise = .ok key) : key.Fresh bits := by
  rw [generate] at h
  split at h
  · simp at h
  · split at h
    · simp at h
    · exact fresh_of_searchKey h

theorem PrivateKey.Fresh.load_toText {key : PrivateKey} {bits : Nat} (h : key.Fresh bits)
    (hbytes : 8 ∣ bits) (asked : Nat) (path : String) :
    load asked path key.toText =
      if bits = asked then .ok key else .error (.keySizeMismatch asked bits) := by
  have hexponent : key.exponent.log2 < 2 ^ 32 :=
    log2_lt_of_le h.exponent.le (Nat.lt_trans key.publicKey.log2_modulus_lt (by decide))
  rw [Rsa.load_toText hexponent, PublicKey.blockLength_mul_eight h.bitLength hbytes]

/-- A key pair is read from the file at a path, or else it is generated and a file is made. -/
theorem cases_of_obtain {bits : Nat} {path : String} {files filled : KeyFiles} {noise : Noise}
    {key : PrivateKey} (h : obtain bits (.persisted path) files noise = (.ok key, filled)) :
    (∃ content, files.read? path = some content ∧ load bits path content = .ok key ∧
        filled = files) ∨
      (files.mayCreate path = true ∧ generate bits noise = .ok key ∧
        filled = files.write path key.toText) := by
  simp only [obtain, loadOrCreate] at h
  split at h
  · next content hfile =>
    obtain ⟨hload, rfl⟩ := Prod.mk.inj h
    exact .inl ⟨content, KeyFiles.read?_eq_some_iff.mpr hfile, hload, rfl⟩
  · simp at h
  · split at h
    · simp at h
    · next made hgenerate =>
      split at h
      · next hcreate =>
        obtain ⟨hkey, rfl⟩ := Prod.mk.inj h
        obtain rfl := Except.ok.inj hkey
        exact .inr ⟨hcreate, hgenerate, rfl⟩
      · simp at h

/-- The modulus of a key pair that is obtained has the length that was asked for. Only that
of a pair that is read back from a file may be shorter, by less than a byte. -/
theorem bitLength_of_obtain {bits : Nat} {lifetime : KeyLifetime} {files filled : KeyFiles}
    {noise : Noise} {key : PrivateKey} (h : obtain bits lifetime files noise = (.ok key, filled)) :
    bits ≤ bitLength key.publicKey.modulus + 7 ∧ bitLength key.publicKey.modulus ≤ bits ∧
      ((∀ path, lifetime = .persisted path → files.read? path = none) →
        bitLength key.publicKey.modulus = bits) := by
  have hfresh (hgenerate : generate bits noise = .ok key) :
      bitLength key.publicKey.modulus = bits := (fresh_of_generate hgenerate).bitLength
  cases lifetime with
  | ephemeral =>
    have hbits := hfresh (Prod.mk.inj h).1
    exact ⟨by omega, by omega, fun _ => hbits⟩
  | persisted path =>
    obtain ⟨content, hread, hload, -⟩ | ⟨-, hgenerate, -⟩ := cases_of_obtain h
    · rw [load] at hload
      split at hload
      · simp at hload
      · dsimp only at hload
        split at hload
        · next hstored =>
          obtain rfl := Except.ok.inj hload
          rw [PublicKey.blockLength] at hstored
          refine ⟨by omega, by omega, fun hnone => ?_⟩
          simp [hnone path rfl] at hread
        · simp at hload
    · have hbits := hfresh hgenerate
      exact ⟨by omega, by omega, fun _ => hbits⟩

end Rsa

end CipherLink
