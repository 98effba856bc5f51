import CipherLink.Proofs.Handshake.Agreement
import Mathlib.Algebra.Order.Floor.Div

/-!
# Data in chunks

Data of any length are encrypted chunk by chunk, into as many blocks as there are chunks,
and the blocks are decrypted one by one. So what is decrypted of two ciphertexts of whole
blocks, one behind the other, is what is decrypted of each of them.
-/

namespace CipherLink

namespace Bytes

theorem length_chunks {w : Nat} (hw : 0 < w) (bs : Bytes) :
    (chunks w bs).length = bs.length ⌈/⌉ w := by
  rw [Nat.ceilDiv_eq_add_pred_div]
  fun_induction chunks w bs with
  | case1 => simp [Nat.div_eq_of_lt (Nat.sub_lt hw Nat.one_pos)]
  | case2 b bs ih =>
    rw [List.length_cons, ih, List.length_drop, List.length_cons]
    have hsum : bs.length + 1 + w - 1 = bs.length + w := by omega
    rw [hsum, Nat.add_div_right _ hw]
    by_cases hlong : w - 1 ≤ bs.length
    · rw [show bs.length - (w - 1) + w - 1 = bs.length by omega]
    · rw [show bs.length - (w - 1) + w - 1 = w - 1 by omega, Nat.div_eq_of_lt (by omega),
        Nat.div_eq_of_lt (by omega)]

theorem chunks_append {w : Nat} (hw : 0 < w) {front : Bytes} (hfront : w ∣ front.length)
    (rest : Bytes) : chunks w (front ++ rest) = chunks w front ++ chunks w rest := by
  fun_induction chunks w front with
  | case1 => rfl
  | case2 b bs ih =>
    rw [List.length_cons] at hfront
    have hle : w - 1 ≤ bs.length := by
      have := Nat.le_of_dvd (Nat.succ_pos _) hfront
      omega
    have hothers : w ∣ (bs.drop (w - 1)).length := by
      rw [List.length_drop, show bs.length - (w - 1) = bs.length + 1 - w by omega]
      exact Nat.dvd_sub hfront (Nat.dvd_refl w)
    rw [List.cons_append, chunks, List.take_append_of_le_length hle,
      List.drop_append_of_le_length hle, ih hothers, List.cons_append]

end Bytes

namespace Rsa

namespace PrivateKey

variable (key : PrivateKey)

theorem decryptBlocks_append (xs ys : List Bytes) :
    key.decryptBlocks (xs ++ ys) = (do
      let front ← key.decryptBlocks xs
      let rest ← key.decryptBlocks ys
      return front ++ rest) := by
  induction xs with
  | nil =>
    cases hys : key.decryptBlocks ys <;>
      simp [decryptBlocks, hys, bind, Except.bind, pure, Except.pure]
  | cons x xs ih =>
    rw [List.cons_append, decryptBlocks, decryptBlocks, ih]
    cases hx : key.decryptBlock x with
    | error cause => rfl
    | ok chunk =>
      cases hxs : key.decryptBlocks xs with
      | error cause => rfl
      | ok front =>
        cases hys : key.decryptBlocks ys with
        | error cause => rfl
        | ok rest => simp [bind, Except.bind, pure, Except.pure]

theorem decrypt_whole {bs : Bytes} (h : key.publicKey.blockLength ∣ bs.length) :
    key.decrypt bs = key.decryptBlocks (bs.chunks key.publicKey.blockLength) := by
  simp only [decrypt, Nat.mod_eq_zero_of_dvd h, ne_eq, not_true_eq_false, if_false]

theorem decrypt_part {bs : Bytes} (h : ¬ key.publicKey.blockLength ∣ bs.length) :
    key.decrypt bs = .error (.invalidCiphertextLength bs.length key.publicKey.blockLength) := by
  rw [Nat.dvd_iff_mod_eq_zero] at h
  simp only [decrypt, ne_eq, h, not_false_eq_true, if_true]

theorem decrypt_append (hpos : 0 < key.publicKey.blockLength) {xs ys : Bytes}
    (hxs : key.publicKey.blockLength ∣ xs.length) (hys : key.publicKey.blockLength ∣ ys.length) :
    key.decrypt (xs ++ ys) = (do
      let front ← key.decrypt xs
      let rest ← key.decrypt ys
      return front ++ rest) := by
  have hboth : key.publicKey.blockLength ∣ (xs ++ ys).length := by
    rw [List.length_append]
    exact Nat.dvd_add hxs hys
  rw [key.decrypt_whole hboth, key.decrypt_whole hxs, key.decrypt_whole hys,
    Bytes.chunks_append hpos hxs, decryptBlocks_append]

end PrivateKey

end Rsa

theorem RsaExchange.peerKey_of_setPublicKey {x y : RsaExchange} {text : Bytes} {key : Rsa.PublicKey}
    (hkey : Rsa.PublicKey.ofText? text = some key) (h : x.setPublicKey text = .ok y) :
    y.peerKey = some key := by
  rw [setPublicKey] at h
  split at h
  · simp at h
  · rw [hkey] at h
    obtain rfl := Except.ok.inj h
    rfl

/-- Data of any length can be encrypted for the holder of a key pair whose public key was
imported, and come out as they were. Any two ciphertexts of whole blocks are decrypted one
behind the other exactly if each of them is, and what is not whole blocks is refused. -/
theorem chunked_encryption {receiver sender sender' : RsaExchange} {key : Rsa.PrivateKey}
    {text : Bytes} {k : Nat} (hkeys : receiver.keyPair = some key)
    (htext : Rsa.PublicKey.ofText? text = some key.publicKey)
    (himport : sender.setPublicKey text = .ok sender') (hinverts : key.Inverts)
    (hk : key.publicKey.blockLength = k) (hroom : 12 ≤ k) :
    (∀ (noise : Noise) (plain : Bytes), ∃ cipher, sender'.encrypt noise plain = .ok cipher ∧
      cipher.length = (plain.length ⌈/⌉ (k - 11)) * k ∧ receiver.decrypt cipher = .ok plain) ∧
    (∀ front rest : Bytes, k ∣ front.length → k ∣ rest.length → ∀ plain,
      receiver.decrypt (front ++ rest) = .ok plain ↔
        ∃ x y, receiver.decrypt front = .ok x ∧ receiver.decrypt rest = .ok y ∧ plain = x ++ y) ∧
    ∀ cipher : Bytes, ¬ k ∣ cipher.length →
      receiver.decrypt cipher = .error (.invalidCiphertextLength cipher.length k) := by
  subst hk
  have hpeer := RsaExchange.peerKey_of_setPublicKey htext himport
  have hdecrypt (bs : Bytes) : receiver.decrypt bs = key.decrypt bs := by
    rw [RsaExchange.decrypt, hkeys]
  refine ⟨?_, ?_, ?_⟩
  · intro noise plain
    have hencrypt : sender'.encrypt noise plain =
        .ok (key.publicKey.encryptChunks noise (plain.chunks key.publicKey.chunkLength)) := by
      rw [RsaExchange.encrypt, hpeer]
      exact Rsa.PublicKey.encrypt_eq hroom noise plain
    refine ⟨_, hencrypt, ?_, ?_⟩
    · have hpos : 0 < key.publicKey.blockLength - 11 := by omega
      rw [Rsa.length_encryptChunks, Nat.mul_comm, Rsa.PublicKey.chunkLength, Rsa.paddingOverhead,
        Bytes.length_chunks hpos]
    · rw [hdecrypt]
      exact Rsa.decrypt_encrypt hinverts (Rsa.PublicKey.encrypt_eq hroom noise plain)
  · intro front rest hfront hrest plain
    rw [hdecrypt, hdecrypt, hdecrypt, key.decrypt_append (by omega) hfront hrest]
    cases key.decrypt front with
    | error cause => simp [bind, Except.bind]
    | ok x =>
      cases key.decrypt rest with
      | error cause => simp [bind, Except.bind]
      | ok y => simp [bind, Except.bind, pure, Except.pure, eq_comm]
  · intro cipher hpart
    rw [hdecrypt]
    exact key.decrypt_part hpart

def shortestKey : Rsa.PrivateKey where
  publicKey := ⟨(2 ^ 61 - 1) * (2 ^ 31 - 1), 65537, by decide +kernel⟩
  exponent := 1690970304802162823
  p := 2 ^ 61 - 1
  q := 2 ^ 31 - 1
  undoes := by decide +kernel

theorem shortestKey_inverts : shortestKey.Inverts :=
  Rsa.PrivateKey.inverts_of_prime (lucas_lehmer_sufficiency 61 (by decide) (by norm_num))
    (lucas_lehmer_sufficiency 31 (by decide) (by norm_num)) (by decide)

/-- Three bytes in three blocks, behind which nothing and a part of a block are decrypted. -/
theorem chunked_encryption_three :
    let receiver : RsaExchange := ⟨92, .ephemeral, some shortestKey, none⟩
    let text := shortestKey.publicKey.toText
    ∃ sender' cipher,
      receiver.keyPair = some shortestKey ∧
      Rsa.PublicKey.ofText? text = some shortestKey.publicKey ∧
      RsaExchange.setPublicKey ⟨92, .ephemeral, none, none⟩ text = .ok sender' ∧
      shortestKey.Inverts ∧ shortestKey.publicKey.blockLength = 12 ∧ 12 ≤ 12 ∧
      sender'.encrypt (fun _ => 7) [1, 2, 3] = .ok cipher ∧
      cipher.length = ([1, 2, 3] : Bytes).length ⌈/⌉ (12 - 11) * 12 ∧
      receiver.decrypt cipher = .ok [1, 2, 3] ∧
      (receiver.decrypt (cipher ++ []) = .ok [1, 2, 3] ↔ ∃ x y, receiver.decrypt cipher = .ok x ∧
        receiver.decrypt [] = .ok y ∧ [1, 2, 3] = x ++ y) ∧
      receiver.decrypt (List.replicate 5 0) = .error (.invalidCiphertextLength 5 12) := by
  intro receiver text
  have htext := shortestKey.publicKey.ofText?_toText
  have himport := RsaExchange.setPublicKey_toText ⟨92, .ephemeral, none, none⟩ shortestKey.publicKey
  have hlength : shortestKey.publicKey.blockLength = 12 := by decide +kernel
  have hkeys : receiver.keyPair = some shortestKey := rfl
  obtain ⟨hround, hboth, hpart⟩ := chunked_encryption hkeys htext himport shortestKey_inverts
    hlength (Nat.le_refl 12)
  obtain ⟨cipher, hencrypt, hcount, hdecrypt⟩ := hround (fun _ => 7) [1, 2, 3]
  have hwhole : 12 ∣ cipher.length := ⟨_, hcount.trans (Nat.mul_comm _ _)⟩
  exact ⟨_, cipher, hkeys, htext, himport, shortestKey_inverts, hlength, Nat.le_refl 12, hencrypt,
    hcount, hdecrypt, hboth cipher [] hwhole (Nat.dvd_zero 12) [1, 2, 3],
    hpart (List.replicate 5 0) (by decide)⟩

end CipherLink
