import CipherLink.Proofs.Chaining

/-!
# Keys that can be expanded

A key of the right number of bytes is expanded into one block more than there are
rounds. So a package of the lengths that an algorithm asks for keys a transform, if the
key size of the algorithm is one that there is.
-/

namespace CipherLink

namespace Aes

namespace KeySize

theorem ofBits?_bits (size : KeySize) : ofBits? size.bits = some size := by
  cases size <;> rfl

theorem columns_pos (size : KeySize) : 0 < size.columns := by
  cases size <;> decide

end KeySize

namespace RoundKeys

theorem length_expandFrom (size : KeySize) {window : List Column} (h : window ≠ [])
    (i count : Nat) : (expandFrom size i window count).length = count := by
  induction count generalizing i window with
  | zero => rfl
  | succ count ih =>
    cases window with
    | nil => exact absurd rfl h
    | cons oldest others =>
      rw [expandFrom, List.length_cons, ih (by simp)]

theorem length_expand (size : KeySize) {key : List Column} (h : key.length = size.columns) :
    (expand size key).length = 4 * (size.rounds + 1) := by
  have hne : key ≠ [] := by
    rintro rfl
    exact absurd h (Nat.ne_of_lt size.columns_pos)
  have hle : size.columns ≤ 4 * (size.rounds + 1) := by
    rw [KeySize.rounds]
    omega
  rw [expand, List.length_append, length_expandFrom size hne, h, Nat.add_sub_cancel' hle]

theorem exists_ofKey? (size : KeySize) {key : Bytes} (h : 8 * key.length = size.bits) :
    ∃ keys, ofKey? size key = some keys := by
  have hbits : size.bits = 32 * size.columns := by
    cases size <;> rfl
  obtain ⟨columns, hcolumns, hlength⟩ := Block.columns?_isSome key (by omega)
  have hcount : columns.length = size.columns := by omega
  have hexpand := length_expand size hcount
  obtain ⟨blocks, hblocks⟩ := Block.ofColumns?_isSome (expand size columns) (by omega)
  have htotal : blocks.length = size.rounds + 1 := by
    have hflat := congrArg List.length (Block.flatMap_of_ofColumns? hblocks)
    rw [hexpand, List.length_flatMap] at hflat
    simp only [List.length_cons, List.length_nil, List.map_const', List.sum_replicate_nat] at hflat
    omega
  -- There is at least one round, so there is a first and a last block.
  obtain ⟨first, next, rest, rfl⟩ : ∃ first next rest, blocks = first :: next :: rest := by
    match blocks, htotal with
    | first :: next :: rest, _ => exact ⟨first, next, rest, rfl⟩
    | [], htotal => simp at htotal
    | [_], htotal => simp [KeySize.rounds] at htotal
  simp only [ofKey?, hcolumns, Option.bind_eq_bind, Option.bind_some, hcount, if_true, hblocks,
    ofBlocks?]
  exact ⟨_, rfl⟩

end RoundKeys

end Aes

namespace SymmetricAlgorithm

def Usable : SymmetricAlgorithm → Prop
  | .identity => True
  | .aes size => size ∈ namedSizes

instance : (a : SymmetricAlgorithm) → Decidable a.Usable
  | .identity => .isTrue trivial
  | .aes size => inferInstanceAs (Decidable (size ∈ namedSizes))

variable {a : SymmetricAlgorithm}

theorem Usable.exists_keyed (h : a.Usable) {package : KeyPackage}
    (hkey : package.key.length = a.keyLength) (hiv : package.iv.length = a.ivLength) :
    ∃ keyed, a.keyed package = .ok keyed := by
  have hcheck : a.checkPackage package = .ok () := by
    simp only [checkPackage, hkey, hiv, ne_eq, not_true_eq_false, if_false]
  cases a with
  | identity =>
    simp only [keyed, hcheck, bind, Except.bind, pure, Except.pure]
    exact ⟨_, rfl⟩
  | aes bits =>
    obtain ⟨size, hsize⟩ : ∃ size : Aes.KeySize, bits.toNat = size.bits := by
      simp only [Usable, namedSizes, List.mem_cons, List.not_mem_nil, or_false] at h
      rcases h with rfl | rfl | rfl
      · exact ⟨.k128, rfl⟩
      · exact ⟨.k192, rfl⟩
      · exact ⟨.k256, rfl⟩
    have hbits : 8 * package.key.length = size.bits := by
      have hwhole : 8 ∣ size.bits := by
        cases size <;> decide
      rw [hkey, keyLength, hsize]
      omega
    obtain ⟨keys, hkeys⟩ := Aes.RoundKeys.exists_ofKey? size hbits
    have hwhole : Aes.Block.length ∣ package.iv.length := hiv ▸ Nat.dvd_refl Aes.Block.length
    obtain ⟨blocks, hblocks⟩ := Aes.Block.exists_concat hwhole
    obtain ⟨block, rest, rfl⟩ : ∃ block rest, blocks = block :: rest := by
      cases blocks with
      | nil => simp [← hblocks, Aes.Block.concat, ivLength] at hiv
      | cons block rest => exact ⟨block, rest, rfl⟩
    have hparsed := Aes.Block.ofBytes?_concat (block :: rest)
    rw [hblocks] at hparsed
    simp only [keyed, hcheck, bind, Except.bind, hsize, Aes.KeySize.ofBits?_bits, Option.bind_some,
      hkeys, hparsed, List.head?_cons, pure]
    exact ⟨_, rfl⟩

theorem exists_transforms {package : KeyPackage} (h : ∃ keyed, a.keyed package = .ok keyed) :
    (∃ t, a.encryptor package = .ok t) ∧ ∃ t, a.decryptor package = .ok t := by
  obtain ⟨⟨cipher, chain⟩, hkeyed⟩ := h
  exact ⟨⟨⟨cipher, chain⟩, encryptor_eq_ok.mpr hkeyed⟩,
    ⟨⟨cipher, chain⟩, decryptor_eq_ok.mpr hkeyed⟩⟩

end SymmetricAlgorithm

end CipherLink
