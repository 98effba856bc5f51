import CipherLink.Aes.Cipher

/-!
# Decryption of a block

Every step of a round has its inverse: doubling is additive, so mixing a column
and unmixing it leaves a sum in which all other multiples cancel. Decryption
undoes encryption under the same round keys, whatever they are.
-/

namespace CipherLink.Aes

theorem map_substitutionTable :
    substitutionTable.toList.map (fun b => inverseTable.toList.getD b.toNat 0) =
      (List.range 256).map UInt8.ofNat := by
  decide +kernel

theorem unsubstitute_substitute (b : UInt8) : unsubstitute (substitute b) = b := by
  have hentry := congrArg (fun table => table[b.toNat]?) map_substitutionTable
  simp only [List.getElem?_map, List.getElem?_range b.toNat_lt, Option.map_some,
    UInt8.ofNat_toNat, Option.map_eq_some_iff, Array.getElem?_toList] at hentry
  obtain ⟨c, hc, hinverse⟩ := hentry
  rw [substitute, Array.getD_eq_getD_getElem?, hc, Option.getD_some, unsubstitute,
    Array.getD_eq_getD_getElem?, ← Array.getElem?_toList, ← List.getD_eq_getElem?_getD, hinverse]

theorem and_highBit (b : UInt8) : b &&& 0x80 = 0 ∨ b &&& 0x80 = 0x80 := by
  have hbyte : ∀ n < 256, UInt8.ofNat n &&& 0x80 = 0 ∨ UInt8.ofNat n &&& 0x80 = 0x80 := by
    decide +kernel
  simpa using hbyte b.toNat b.toNat_lt

theorem and_xor_highBit (x y : UInt8) :
    (x ^^^ y) &&& 0x80 = (x &&& 0x80) ^^^ (y &&& 0x80) := by
  apply UInt8.toBitVec_inj.mp
  simp only [UInt8.toBitVec_and, UInt8.toBitVec_xor]
  ext i
  simp only [BitVec.getElem_and, BitVec.getElem_xor]
  cases x.toBitVec[i] <;> cases y.toBitVec[i] <;> simp

theorem double_xor (x y : UInt8) : double (x ^^^ y) = double x ^^^ double y := by
  have hreduce : (if (x ^^^ y) &&& 0x80 = 0 then (0 : UInt8) else 0x1b) =
      (if x &&& 0x80 = 0 then 0 else 0x1b) ^^^ (if y &&& 0x80 = 0 then 0 else 0x1b) := by
    rw [and_xor_highBit]
    rcases and_highBit x with hx | hx <;> rcases and_highBit y with hy | hy <;>
      simp only [hx, hy] <;> decide
  simp only [double, UInt8.shiftLeft_xor, hreduce, UInt8.xor_assoc]
  rw [UInt8.xor_comm (y <<< 1), UInt8.xor_assoc, UInt8.xor_comm (y <<< 1)]

theorem xor_left_comm (x y z : UInt8) : x ^^^ (y ^^^ z) = y ^^^ (x ^^^ z) := by
  rw [← UInt8.xor_assoc, UInt8.xor_comm x, UInt8.xor_assoc]

theorem xor_cancel_left (x y : UInt8) : x ^^^ (x ^^^ y) = y := by
  rw [← UInt8.xor_assoc, UInt8.xor_self, UInt8.zero_xor]

namespace Column

theorem unmixRow_mixRow (x y z w : UInt8) :
    unmixRow (mixRow x y z w) (mixRow y z w x) (mixRow z w x y) (mixRow w x y z) = x := by
  simp only [unmixRow, mixRow, double_xor, UInt8.xor_assoc, UInt8.xor_comm, xor_left_comm,
    xor_cancel_left, UInt8.xor_self, UInt8.xor_zero]

theorem add_add_self (x y : Column) : (x.add y).add y = x := by
  simp only [add, UInt8.xor_assoc, UInt8.xor_self, UInt8.xor_zero]

theorem unmix_mix (x : Column) : x.mix.unmix = x := by
  simp only [mix, unmix, unmixRow_mixRow]

theorem map_map_substitute (x : Column) : (x.map substitute).map unsubstitute = x := by
  simp only [map, unsubstitute_substitute]

end Column

namespace Block

theorem add_add_self (x y : Block) : (x.add y).add y = x := by
  simp only [add, Column.add_add_self]

theorem map_map {f g : Column → Column} (h : ∀ c, g (f c) = c) (x : Block) :
    (x.map f).map g = x := by
  simp only [map, h]

end Block

namespace RoundKeys

theorem decryptRound_encryptRound (key x : Block) : decryptRound key (encryptRound x key) = x := by
  simp only [decryptRound, encryptRound, Block.add_add_self, Block.map_map Column.unmix_mix,
    Block.unshiftRows_shiftRows, Block.map_map Column.map_map_substitute]

theorem foldr_decryptRound (keys : List Block) (x : Block) :
    keys.foldr decryptRound (keys.foldl encryptRound x) = x := by
  induction keys generalizing x with
  | nil => rfl
  | cons key keys ih => rw [List.foldl_cons, List.foldr_cons, ih, decryptRound_encryptRound]

theorem decrypt_encrypt (keys : RoundKeys) (x : Block) : keys.decrypt (keys.encrypt x) = x := by
  simp only [decrypt, encrypt, Block.add_add_self, Block.unshiftRows_shiftRows,
    Block.map_map Column.map_map_substitute, foldr_decryptRound]

end RoundKeys

end CipherLink.Aes
