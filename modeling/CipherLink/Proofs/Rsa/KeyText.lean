import CipherLink.KeyFile
import CipherLink.Proofs.Pem

/-!
# Keys read back from their text

Lengths and integers are written in the fewest bytes that can hold them, which is
what a reader insists on. So keys come back from their text, which is short because
the modulus is.
-/

namespace CipherLink

namespace Der

theorem lt_pow_digitCount (n : Nat) : n < 256 ^ digitCount n := by
  have hlt : n < 2 ^ (n.log2 + 1) := Nat.lt_log2_self
  have hle : 2 ^ (n.log2 + 1) ≤ 2 ^ (8 * digitCount n) :=
    Nat.pow_le_pow_right (by decide) (by rw [digitCount]; omega)
  rw [← Bytes.two_pow_mul_eight]
  exact Nat.lt_of_lt_of_le hlt hle

theorem digitCount_le {n : Nat} (h : n < UInt64.size) : digitCount n ≤ 8 := by
  by_cases hn : n = 0
  · subst hn
    decide
  · have hlog : n.log2 < 64 := (Nat.log2_lt hn).mpr h
    rw [digitCount]
    omega

theorem readLength?_writeLength {n : Nat} (h : n < UInt64.size) (rest : Bytes) :
    readLength? (writeLength n ++ rest) = some (n, rest) := by
  by_cases hshort : n < 128
  · have hbyte : (UInt8.ofNat n).toNat = n := by
      rw [UInt8.toNat_ofNat']
      omega
    simp only [writeLength, hshort, if_true, List.cons_append, List.nil_append, readLength?, hbyte]
  · have hcount := digitCount_le h
    have hbyte : (UInt8.ofNat (128 + digitCount n)).toNat = 128 + digitCount n := by
      rw [UInt8.toNat_ofNat']
      omega
    have hsplit := Bytes.split?_append (Bytes.ofNat (digitCount n) n) rest
    rw [Bytes.length_ofNat] at hsplit
    have hlong : 128 ≤ n := by omega
    simp only [writeLength, hshort, if_false, List.cons_append, readLength?, hbyte,
      Nat.add_sub_cancel_left, Option.bind_eq_bind, hsplit, Option.bind_some,
      Bytes.toNat_ofNat (lt_pow_digitCount n), hlong, and_self, if_true]
    rw [if_neg (by omega)]

theorem readItem?_item (tag : UInt8) {content : Bytes} (h : content.length < UInt64.size)
    (rest : Bytes) : readItem? tag (item tag content ++ rest) = some (content, rest) := by
  have hlength := readLength?_writeLength h (content ++ rest)
  simp only [item, List.cons_append, List.append_assoc, readItem?, if_true, hlength,
    Option.bind_eq_bind, Option.bind_some]
  exact Bytes.split?_append content rest

theorem toNat_byte {n w : Nat} (h : n < 2 ^ (8 * w + 8)) :
    (UInt8.ofNat (n >>> (8 * w))).toNat = n / 2 ^ (8 * w) := by
  have hlt : n / 2 ^ (8 * w) < 2 ^ 8 := by
    rw [Nat.div_lt_iff_lt_mul (Nat.two_pow_pos _), ← Nat.pow_add, Nat.add_comm]
    exact h
  rw [UInt8.toNat_ofNat', Nat.shiftRight_eq_div_pow, Nat.mod_eq_of_lt hlt]

theorem naturalOf?_ofNat (n : Nat) :
    naturalOf? (Bytes.ofNat ((n.log2 + 1) / 8 + 1) n) = some n := by
  have hlt : n < 2 ^ (n.log2 + 1) := Nat.lt_log2_self
  obtain ⟨w, hw⟩ : ∃ w, (n.log2 + 1) / 8 = w := ⟨_, rfl⟩
  have hhigh : n < 2 ^ (8 * w + 7) :=
    Nat.lt_of_lt_of_le hlt (Nat.pow_le_pow_right (by decide) (by omega))
  have hfirst : (UInt8.ofNat (n >>> (8 * w))).toNat = n / 2 ^ (8 * w) :=
    toNat_byte (Nat.lt_trans hhigh (Nat.pow_lt_pow_right (by decide) (by omega)))
  have hclear : n / 2 ^ (8 * w) < 128 := by
    rw [Nat.div_lt_iff_lt_mul (Nat.two_pow_pos _), Nat.mul_comm]
    exact hhigh.trans_eq (Nat.pow_add 2 (8 * w) 7)
  have hvalue : Bytes.toNat (Bytes.ofNat (w + 1) n) = n := by
    apply Bytes.toNat_ofNat
    rw [← Bytes.two_pow_mul_eight]
    exact Nat.lt_trans hhigh (Nat.pow_lt_pow_right (by decide) (by omega))
  rw [hw]
  cases w with
  | zero =>
    have hbyte : (UInt8.ofNat (n >>> (8 * 0))).toNat = n := by simpa using hfirst
    have hlt : n < 128 := by simpa using hclear
    simp only [Bytes.ofNat, naturalOf?, hbyte, hlt, if_true]
  | succ v =>
    -- A leading zero is only there because the next byte needs it.
    have hnext : UInt8.ofNat (n >>> (8 * (v + 1))) = 0 →
        128 ≤ (UInt8.ofNat (n >>> (8 * v))).toNat := by
      intro hzero
      rw [hzero, UInt8.toNat_zero] at hfirst
      have hlow : n < 2 ^ (8 * v + 8) := by
        have := (Nat.div_eq_zero_iff_lt (Nat.two_pow_pos _)).mp hfirst.symm
        exact this
      have hne : n ≠ 0 := by
        rintro rfl
        simp at hw
      rw [toNat_byte hlow, Nat.le_div_iff_mul_le (Nat.two_pow_pos _)]
      calc 128 * 2 ^ (8 * v) = 2 ^ (8 * v + 7) := by rw [Nat.pow_add, Nat.mul_comm]
        _ ≤ 2 ^ n.log2 := Nat.pow_le_pow_right (by decide) (by omega)
        _ ≤ n := Nat.log2_self_le hne
    simp only [Bytes.ofNat] at hvalue
    simp only [Bytes.ofNat, naturalOf?, hfirst, hclear, true_and, hvalue]
    rw [if_pos hnext]

theorem readInteger?_integer {n : Nat} (h : n.log2 < UInt64.size) (rest : Bytes) :
    readInteger? (integer n ++ rest) = some (n, rest) := by
  have hwidth : (Bytes.ofNat ((n.log2 + 1) / 8 + 1) n).length < UInt64.size := by
    rw [Bytes.length_ofNat]
    simp only [UInt64.size] at h ⊢
    omega
  simp only [readInteger?, integer, readItem?_item integerTag hwidth, naturalOf?_ofNat,
    Option.bind_eq_bind, Option.bind_some, pure]

theorem readIntegers?_flatten {ns : List Nat} (h : ∀ n ∈ ns, n.log2 < UInt64.size) {limit : Nat}
    (hlimit : ns.length ≤ limit) :
    readIntegers? limit (ns.map integer).flatten = some ns := by
  induction ns generalizing limit with
  | nil => simp [readIntegers?]
  | cons n ns ih =>
    obtain ⟨limit, rfl⟩ : ∃ l, limit = l + 1 := ⟨limit - 1, by simp at hlimit; omega⟩
    have hread := readInteger?_integer (h n List.mem_cons_self) (ns.map integer).flatten
    have hothers := ih (fun m hm => h m (List.mem_cons_of_mem n hm)) (by simpa using hlimit)
    rw [List.map_cons, List.flatten_cons]
    simp only [integer, item, List.cons_append] at hread hothers ⊢
    simp only [readIntegers?, hread, Option.bind_eq_bind, Option.bind_some, hothers, pure]

theorem readIntegerSequence?_sequence (ns : List Nat) {limit : Nat} (hlimit : ns.length ≤ limit)
    (h : ∀ n ∈ ns, n.log2 < UInt64.size)
    (hlength : (ns.map integer).flatten.length < UInt64.size) :
    readIntegerSequence? limit (sequence (ns.map integer)) = some ns := by
  have hitem := readItem?_item sequenceTag hlength []
  rw [List.append_nil] at hitem
  simp only [readIntegerSequence?, sequence, hitem, Option.bind_eq_bind, Option.bind_some,
    List.isEmpty_nil, if_true, readIntegers?_flatten h hlimit]

theorem length_integer (n : Nat) : (integer n).length ≤ 2 * n.log2 + 6 := by
  have hlength (m : Nat) : (writeLength m).length ≤ m + 2 := by
    rw [writeLength]
    split
    · simp
    · have hlog := Nat.log2_le_self m
      rw [List.length_cons, Bytes.length_ofNat, digitCount]
      omega
  have hwidth := hlength ((n.log2 + 1) / 8 + 1)
  simp only [integer, item, List.cons_append, List.length_cons, List.length_append,
    Bytes.length_ofNat]
  omega

theorem length_integers {ns : List Nat} {bound : Nat} (h : ∀ n ∈ ns, n.log2 < bound) :
    (ns.map integer).flatten.length ≤ ns.length * (2 * bound + 6) := by
  induction ns with
  | nil => simp
  | cons n ns ih =>
    have hn := h n List.mem_cons_self
    have hlength := length_integer n
    have hns := ih fun m hm => h m (List.mem_cons_of_mem n hm)
    rw [List.map_cons, List.flatten_cons, List.length_append, List.length_cons, Nat.succ_mul]
    omega

theorem readIntegerSequence?_text (label : String) {ns : List Nat} {limit bound : Nat}
    (hlimit : ns.length ≤ limit) (h : ∀ n ∈ ns, n.log2 < bound)
    (hbound : ns.length * (2 * bound + 6) < UInt64.size) :
    ∃ content, Pem.decode? label (Pem.encode label (sequence (ns.map integer))) = some content ∧
      readIntegerSequence? limit content = some ns := by
  have hsmall : ∀ n ∈ ns, n.log2 < UInt64.size := by
    intro n hn
    have hlog := h n hn
    have hle := Nat.mul_le_mul_right (2 * bound + 6) (List.length_pos_of_mem hn)
    omega
  have hnil : sequence (ns.map integer) ≠ [] := by
    simp [sequence, item]
  exact ⟨_, Pem.decode?_encode label hnil, readIntegerSequence?_sequence ns hlimit hsmall
    (Nat.lt_of_le_of_lt (length_integers h) hbound)⟩

end Der

namespace Rsa

theorem PublicKey.log2_modulus_lt (key : PublicKey) : key.modulus.log2 < greatestBits := by
  have hbits := key.supported.1
  simp only [bitLength, greatestBits] at hbits ⊢
  split at hbits
  · next hzero =>
    rw [hzero]
    decide
  · omega

theorem PublicKey.log2_exponent_lt (key : PublicKey) : key.exponent.log2 < 33 := by
  obtain ⟨-, -, -, hthree, hlt, -⟩ := key.supported
  rw [Nat.shiftLeft_eq, Nat.one_mul] at hlt
  exact (Nat.log2_lt (by omega)).mpr hlt

theorem PublicKey.ofText?_toText (key : PublicKey) : ofText? key.toText = some key := by
  have hmodulus := key.log2_modulus_lt
  have hexponent := key.log2_exponent_lt
  have hsmall : ∀ n ∈ [key.modulus, key.exponent], n.log2 < greatestBits := by
    simp only [List.mem_cons, List.not_mem_nil, or_false, forall_eq_or_imp, forall_eq]
    simp only [greatestBits] at hmodulus ⊢
    omega
  obtain ⟨content, hdecode, hread⟩ := Der.readIntegerSequence?_text label (Nat.le_refl 2) hsmall
    (by simp [greatestBits, UInt64.size])
  simp only [List.map_cons, List.map_nil] at hdecode
  simp only [ofText?, toText, hdecode, hread, Option.bind_eq_bind, Option.bind_some, ofParts?,
    key.supported, dif_pos]

theorem log2_lt_of_le {m n k : Nat} (h : m ≤ n) (hn : n.log2 < k) : m.log2 < k := by
  by_cases hm : m = 0
  · rw [hm, Nat.log2_zero]
    omega
  · have hlt := (Nat.log2_lt (by omega)).mp hn
    exact (Nat.log2_lt hm).mpr (by omega)

theorem inverse?_getD_le (a m : Nat) (hm : 0 < m) : (Modular.inverse? a m).getD 0 ≤ m := by
  rw [Modular.inverse?]
  split
  · have hlt := Int.emod_lt_of_pos (Modular.euclid (a % m) m 1 0) (Int.natCast_pos.mpr hm)
    rw [Option.getD_some]
    omega
  · exact Nat.zero_le _

/-- A key pair is read back from its text, unless its exponent is of a length that
cannot be written. -/
theorem PrivateKey.ofText?_toText {key : PrivateKey} (h : key.exponent.log2 < 2 ^ 32) :
    ofText? key.toText = some key := by
  obtain ⟨hproduct, hp, hq, -, -⟩ := key.undoes
  have hmodulus := key.publicKey.log2_modulus_lt
  have hexponent := key.publicKey.log2_exponent_lt
  have hple : key.p ≤ key.publicKey.modulus := hproduct ▸ Nat.le_mul_of_pos_right _ (by omega)
  have hqle : key.q ≤ key.publicKey.modulus := hproduct ▸ Nat.le_mul_of_pos_left _ (by omega)
  have hmodulus : key.publicKey.modulus.log2 < 2 ^ 32 :=
    Nat.lt_trans hmodulus (by decide)
  have hsmall : ∀ n ∈ [0, key.publicKey.modulus, key.publicKey.exponent, key.exponent, key.p,
      key.q, key.exponent % (key.p - 1), key.exponent % (key.q - 1),
      (Modular.inverse? key.q key.p).getD 0], n.log2 < 2 ^ 32 := by
    simp only [List.mem_cons, List.not_mem_nil, or_false, forall_eq_or_imp, forall_eq]
    refine ⟨by decide, hmodulus, by omega, h, log2_lt_of_le hple hmodulus,
      log2_lt_of_le hqle hmodulus, log2_lt_of_le (Nat.mod_le _ _) h,
      log2_lt_of_le (Nat.mod_le _ _) h, ?_⟩
    exact log2_lt_of_le (Nat.le_trans (inverse?_getD_le _ _ (by omega)) hple) hmodulus
  obtain ⟨content, hdecode, hread⟩ := Der.readIntegerSequence?_text label (Nat.le_refl 9) hsmall
    (by simp [UInt64.size])
  have hpublic : PublicKey.ofParts? key.publicKey.modulus key.publicKey.exponent =
      some key.publicKey := dif_pos key.publicKey.supported
  simp only [ofText?, toText, hdecode, hread, Option.bind_eq_bind, Option.bind_some, ofParts?,
    hpublic, key.undoes, dif_pos]

theorem load_toText {key : PrivateKey} (h : key.exponent.log2 < 2 ^ 32) (bits : Nat)
    (path : String) : load bits path key.toText =
      if key.publicKey.blockLength * 8 = bits then .ok key
      else .error (.keySizeMismatch bits (key.publicKey.blockLength * 8)) := by
  obtain ⟨s, hs⟩ : ∃ s, key.toText.utf8? = some s := Pem.utf8?_encode _ _
  simp only [load, hs, Option.bind_some, PrivateKey.ofText?_toText h]

end Rsa

end CipherLink
