import CipherLink.Proofs.Digits
import CipherLink.Rsa.Cipher
import Mathlib.FieldTheory.Finite.Basic
import Mathlib.Data.Nat.ModEq

/-!
# Decryption under RSA keys

A key pair inverts when decryption undoes the encryption of every single chunk.
It then does so for data of any length. If the two factors are different primes,
Fermat's theorem gives the number back modulo either factor, and a number below
the modulus is known by its remainders.
-/

namespace CipherLink.Rsa

namespace PrivateKey

/-- Whether what is encrypted in a block comes out of it again. -/
def Inverts (key : PrivateKey) : Prop :=
  ∀ (noise : Noise) (chunk : Bytes), chunk.length + paddingOverhead ≤ key.publicKey.blockLength →
    key.decryptBlock (key.publicKey.encryptBlock noise chunk) = .ok chunk

end PrivateKey

theorem length_of_mem_chunks {w : Nat} (hw : 0 < w) {bs chunk : Bytes}
    (h : chunk ∈ Bytes.chunks w bs) : chunk.length ≤ w := by
  fun_induction Bytes.chunks w bs with
  | case1 => simp at h
  | case2 b bs ih =>
    rcases List.mem_cons.mp h with rfl | h
    · rw [List.length_cons, List.length_take]
      omega
    · exact ih h

theorem length_encryptChunks (key : PublicKey) (noise : Noise) (chunks : List Bytes) :
    (key.encryptChunks noise chunks).length = key.blockLength * chunks.length := by
  induction chunks generalizing noise with
  | nil => rfl
  | cons chunk chunks ih =>
    rw [PublicKey.encryptChunks, List.length_append, ih, PublicKey.encryptBlock,
      Bytes.length_ofNat, List.length_cons, Nat.mul_succ, Nat.add_comm]

theorem PublicKey.encrypt_eq {key : PublicKey} (h : paddingOverhead < key.blockLength)
    (noise : Noise) (bs : Bytes) :
    key.encrypt noise bs = .ok (key.encryptChunks noise (bs.chunks key.chunkLength)) := by
  rw [encrypt, if_neg]
  rw [chunkLength]
  omega

theorem decryptBlocks_encryptChunks {key : PrivateKey} (h : key.Inverts)
    (hpos : 0 < key.publicKey.blockLength) (noise : Noise) {chunks : List Bytes}
    (hchunks : ∀ chunk ∈ chunks, chunk.length + paddingOverhead ≤ key.publicKey.blockLength) :
    key.decryptBlocks (Bytes.chunks key.publicKey.blockLength
      (key.publicKey.encryptChunks noise chunks)) = .ok chunks.flatten := by
  induction chunks generalizing noise with
  | nil => simp [PublicKey.encryptChunks, Bytes.chunks, PrivateKey.decryptBlocks]
  | cons chunk chunks ih =>
    have hlength : (key.publicKey.encryptBlock noise chunk).length = key.publicKey.blockLength :=
      Bytes.length_ofNat _ _
    have hne : key.publicKey.encryptChunks noise (chunk :: chunks) ≠ [] := by
      intro hnil
      have hzero := length_encryptChunks key.publicKey noise (chunk :: chunks)
      rw [hnil, List.length_nil, List.length_cons, Nat.mul_succ] at hzero
      omega
    have hothers := ih (noise.drop key.publicKey.blockLength)
      fun c hc => hchunks c (List.mem_cons_of_mem chunk hc)
    rw [Bytes.chunks_of_ne_nil hne hpos, PublicKey.encryptChunks, List.take_left' hlength,
      List.drop_left' hlength, PrivateKey.decryptBlocks, h noise chunk (hchunks chunk
        List.mem_cons_self)]
    simp only [bind, Except.bind, hothers, pure, Except.pure, List.flatten_cons]

theorem decrypt_encrypt {key : PrivateKey} (h : key.Inverts) {noise : Noise} {bs cs : Bytes}
    (hcs : key.publicKey.encrypt noise bs = .ok cs) : key.decrypt cs = .ok bs := by
  rw [PublicKey.encrypt] at hcs
  split at hcs
  · simp at hcs
  · next hlength =>
    obtain rfl := Except.ok.inj hcs
    have hroom : key.publicKey.chunkLength + paddingOverhead = key.publicKey.blockLength := by
      simp only [PublicKey.chunkLength] at hlength ⊢
      omega
    have hchunks : ∀ chunk ∈ bs.chunks key.publicKey.chunkLength,
        chunk.length + paddingOverhead ≤ key.publicKey.blockLength := by
      intro chunk hchunk
      have hle := length_of_mem_chunks (Nat.pos_of_ne_zero hlength) hchunk
      omega
    have hblocks := decryptBlocks_encryptChunks h (by omega) noise hchunks
    rw [Bytes.flatten_chunks] at hblocks
    simp only [PrivateKey.decrypt, length_encryptChunks, Nat.mul_mod_right, ne_eq,
      not_true_eq_false, if_false, hblocks]

theorem pow_modEq_self {p a : ℕ} (hp : p.Prime) (ha : a % (p - 1) = 1) (m : ℕ) :
    m ^ a ≡ m [MOD p] := by
  have hsplit := Nat.div_add_mod a (p - 1)
  rw [ha] at hsplit
  by_cases hdvd : p ∣ m
  · have hpow : p ∣ m ^ a := dvd_pow hdvd (by omega)
    exact ((Nat.modEq_zero_iff_dvd.mpr hpow).trans (Nat.modEq_zero_iff_dvd.mpr hdvd).symm)
  · have hcoprime : m.Coprime p := ((Nat.Prime.coprime_iff_not_dvd hp).mpr hdvd).symm
    have hfermat : m ^ (p - 1) ≡ 1 [MOD p] := by
      rw [← Nat.totient_prime hp]
      exact Nat.ModEq.pow_totient hcoprime
    calc m ^ a = (m ^ (p - 1)) ^ (a / (p - 1)) * m := by rw [← pow_mul, ← pow_succ, hsplit]
      _ ≡ 1 ^ (a / (p - 1)) * m [MOD p] := (hfermat.pow _).mul_right m
      _ = m := by rw [one_pow, one_mul]

theorem pow_pow_modEq {p e d n m : ℕ} (hp : p.Prime) (hd : e * d % (p - 1) = 1)
    (hn : n ≡ m ^ e [MOD p]) : n ^ d ≡ m [MOD p] :=
  calc n ^ d ≡ (m ^ e) ^ d [MOD p] := hn.pow d
    _ = m ^ (e * d) := (pow_mul m e d).symm
    _ ≡ m [MOD p] := pow_modEq_self hp hd m

theorem combine_modEq {p q i x y m : ℕ} (hi : q * i % p = 1) (hx : x ≡ m [MOD p])
    (hy : y ≡ m [MOD q]) (hp : 0 < p) :
    (x + (p - y % p)) * i % p * q + y ≡ m [MOD p] ∧
      (x + (p - y % p)) * i % p * q + y ≡ m [MOD q] := by
  constructor
  · have hlt := Nat.mod_lt y hp
    have hinverse : i * q ≡ 1 [MOD p] := by
      rw [Nat.mul_comm]
      exact hi.trans (Nat.mod_eq_of_lt (by
        by_contra hone
        obtain rfl : p = 1 := by omega
        rw [Nat.mod_one] at hi
        omega)).symm
    calc (x + (p - y % p)) * i % p * q + y
        ≡ (x + (p - y % p)) * i * q + y % p [MOD p] :=
          ((Nat.mod_modEq _ _).mul_right q).add (Nat.mod_modEq y p).symm
      _ = (x + (p - y % p)) * (i * q) + y % p := by rw [Nat.mul_assoc]
      _ ≡ (x + (p - y % p)) * 1 + y % p [MOD p] := (hinverse.mul_left _).add_right _
      _ = x + p := by omega
      _ ≡ x [MOD p] := Nat.add_mod_right x p
      _ ≡ m [MOD p] := hx
  · calc (x + (p - y % p)) * i % p * q + y ≡ y [MOD q] := Nat.mul_add_mod_self_right _ _ _
      _ ≡ m [MOD q] := hy

namespace PrivateKey

theorem root_raise {key : PrivateKey} (hp : key.p.Prime) (hq : key.q.Prime) (hne : key.p ≠ key.q)
    {m : ℕ} (hm : m < key.publicKey.modulus) : key.root (key.publicKey.raise m) = m := by
  obtain ⟨hmodulus, -, -, hdp, hdq⟩ := key.undoes
  have hcoprime : key.p.Coprime key.q := (Nat.coprime_primes hp hq).mpr hne
  obtain ⟨n, hn⟩ : ∃ n, key.publicKey.raise m = n := ⟨_, rfl⟩
  have hraise : n ≡ m ^ key.publicKey.exponent [MOD key.publicKey.modulus] := by
    rw [← hn, PublicKey.raise, Modular.powMod_eq]
    exact Nat.mod_modEq _ _
  have hnp : n ≡ m ^ key.publicKey.exponent [MOD key.p] :=
    hraise.of_dvd (hmodulus ▸ Nat.dvd_mul_right _ _)
  have hnq : n ≡ m ^ key.publicKey.exponent [MOD key.q] :=
    hraise.of_dvd (hmodulus ▸ Nat.dvd_mul_left _ _)
  have hunique {r : ℕ} (hr : r < key.publicKey.modulus) (hrp : r ≡ m [MOD key.p])
      (hrq : r ≡ m [MOD key.q]) : r = m := by
    have hrm := (Nat.modEq_and_modEq_iff_modEq_mul hcoprime).mp ⟨hrp, hrq⟩
    rw [hmodulus] at hrm
    exact Nat.ModEq.eq_of_lt_of_lt hrm hr hm
  rw [hn, root]
  split
  · next i hinverse =>
    have hi := Modular.inverse?_eq_some hinverse
    have hx : Modular.powMod n (key.exponent % (key.p - 1)) key.p ≡ m [MOD key.p] := by
      rw [Modular.powMod_eq]
      exact (Nat.mod_modEq _ _).trans (pow_pow_modEq hp (by rw [Nat.mul_mod_mod]; exact hdp) hnp)
    have hy : Modular.powMod n (key.exponent % (key.q - 1)) key.q ≡ m [MOD key.q] := by
      rw [Modular.powMod_eq]
      exact (Nat.mod_modEq _ _).trans (pow_pow_modEq hq (by rw [Nat.mul_mod_mod]; exact hdq) hnq)
    obtain ⟨hrp, hrq⟩ := combine_modEq hi hx hy hp.pos
    refine hunique ?_ hrp hrq
    have hlast : Modular.powMod n (key.exponent % (key.q - 1)) key.q < key.q := by
      rw [Modular.powMod_eq]
      exact Nat.mod_lt _ hq.pos
    have hfirst := Nat.mul_le_mul_right key.q (Nat.succ_le_of_lt (Nat.mod_lt
      ((Modular.powMod n (key.exponent % (key.p - 1)) key.p +
        (key.p - Modular.powMod n (key.exponent % (key.q - 1)) key.q % key.p)) * i) hp.pos))
    rw [Nat.succ_mul, hmodulus] at hfirst
    dsimp only
    omega
  · rw [Modular.powMod_eq]
    refine hunique (Nat.mod_lt _ (by omega)) ?_ ?_
    · exact ((Nat.mod_modEq _ _).of_dvd (hmodulus ▸ Nat.dvd_mul_right _ _)).trans
        (pow_pow_modEq hp hdp hnp)
    · exact ((Nat.mod_modEq _ _).of_dvd (hmodulus ▸ Nat.dvd_mul_left _ _)).trans
        (pow_pow_modEq hq hdq hnq)

end PrivateKey

theorem lt_pow_blockLength (key : PublicKey) : key.modulus < 256 ^ key.blockLength := by
  rw [← Bytes.two_pow_mul_eight, PublicKey.blockLength, bitLength]
  split
  · next hzero =>
    rw [hzero]
    decide
  · exact Nat.lt_of_lt_of_le Nat.lt_log2_self (Nat.pow_le_pow_right (by decide) (by omega))

theorem pow_blockLength_le (key : PublicKey) : 256 ^ (key.blockLength - 1) ≤ key.modulus := by
  have hodd := key.supported.2.1
  have hne : key.modulus ≠ 0 := by omega
  rw [← Bytes.two_pow_mul_eight, PublicKey.blockLength, bitLength, if_neg hne]
  exact Nat.le_trans (Nat.pow_le_pow_right (by decide) (by omega)) (Nat.log2_self_le hne)

theorem toNat_pad_lt (key : PublicKey) (noise : Noise) {chunk : Bytes}
    (h : chunk.length + paddingOverhead ≤ key.blockLength) :
    Bytes.toNat (pad key.blockLength noise chunk) < key.modulus := by
  have hlength := length_pad noise h
  obtain ⟨rest, hrest⟩ : ∃ rest, pad key.blockLength noise chunk = 0 :: rest := ⟨_, rfl⟩
  have hlt := Bytes.toNat_lt rest
  rw [hrest, List.length_cons] at hlength
  rw [hrest, Bytes.toNat_cons, UInt8.toNat_zero, Nat.zero_mul, Nat.zero_add]
  rw [show rest.length = key.blockLength - 1 by omega] at hlt
  exact Nat.lt_of_lt_of_le hlt (pow_blockLength_le key)

theorem PrivateKey.inverts_of_prime {key : PrivateKey} (hp : key.p.Prime) (hq : key.q.Prime)
    (hne : key.p ≠ key.q) : key.Inverts := by
  intro noise chunk hroom
  obtain ⟨m, hm⟩ : ∃ m, Bytes.toNat (pad key.publicKey.blockLength noise chunk) = m := ⟨_, rfl⟩
  have hlt : m < key.publicKey.modulus := hm ▸ toNat_pad_lt key.publicKey noise hroom
  have hpad : Bytes.ofNat key.publicKey.blockLength m =
      pad key.publicKey.blockLength noise chunk := by
    rw [← hm]
    nth_rewrite 1 [← length_pad noise hroom]
    exact Bytes.ofNat_toNat _
  have hraise : key.publicKey.raise m < key.publicKey.modulus := by
    rw [PublicKey.raise, Modular.powMod_eq]
    exact Nat.mod_lt _ (by omega)
  have hblock : Bytes.toNat (key.publicKey.encryptBlock noise chunk) = key.publicKey.raise m := by
    rw [PublicKey.encryptBlock, hm]
    exact Bytes.toNat_ofNat (Nat.lt_trans hraise (lt_pow_blockLength key.publicKey))
  simp only [decryptBlock, hblock, Nat.not_le_of_lt hraise, if_false, root_raise hp hq hne hlt,
    ne_eq, not_true_eq_false, hpad, unpad?_pad noise hroom]

end CipherLink.Rsa
