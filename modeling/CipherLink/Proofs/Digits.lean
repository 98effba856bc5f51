import CipherLink.Bytes
import Mathlib.Tactic.Ring

/-!
# Numbers in a fixed width

`Bytes.ofNat` writes the residue of a number modulo the power of 256 that its
width allows, and `Bytes.toNat` reads it back; no two byte strings of one width
spell the same number. Below half that power the two's complement reading agrees
with the unsigned one.
-/

namespace CipherLink.Bytes

theorem foldl_digits (n : Nat) (bs : Bytes) :
    bs.foldl (fun n b => n * 256 + b.toNat) n = n * 256 ^ bs.length + bs.toNat := by
  induction bs generalizing n with
  | nil => simp [toNat]
  | cons b bs ih =>
    have hb := ih b.toNat
    simp only [toNat, List.foldl_cons, List.length_cons, Nat.zero_mul, Nat.zero_add] at ih hb ⊢
    rw [ih, hb, pow_succ]
    ring

@[simp] theorem toNat_nil : toNat [] = 0 := rfl

theorem toNat_cons (b : UInt8) (bs : Bytes) :
    toNat (b :: bs) = b.toNat * 256 ^ bs.length + bs.toNat := by
  simpa [toNat] using foldl_digits b.toNat bs

theorem toNat_lt (bs : Bytes) : bs.toNat < 256 ^ bs.length := by
  induction bs with
  | nil => simp
  | cons b bs ih =>
    have hb := b.toNat_lt
    have hle : b.toNat * 256 ^ bs.length ≤ 255 * 256 ^ bs.length :=
      Nat.mul_le_mul_right _ (by omega)
    rw [toNat_cons, List.length_cons, pow_succ]
    omega

theorem two_pow_mul_eight (w : Nat) : 2 ^ (8 * w) = 256 ^ w := by
  rw [pow_mul]
  norm_num

theorem toNat_ofNat_mod (w n : Nat) : toNat (ofNat w n) = n % 256 ^ w := by
  induction w with
  | zero => simp [ofNat, Nat.mod_one]
  | succ w ih =>
    have hb : (UInt8.ofNat (n >>> (8 * w))).toNat = n / 256 ^ w % 256 := by
      rw [UInt8.toNat_ofNat', Nat.shiftRight_eq_div_pow, two_pow_mul_eight]
    rw [ofNat, toNat_cons, ih, hb, length_ofNat, pow_succ, Nat.mod_mul]
    ring

theorem toNat_ofNat {w n : Nat} (h : n < 256 ^ w) : toNat (ofNat w n) = n := by
  rw [toNat_ofNat_mod, Nat.mod_eq_of_lt h]

theorem toNat_injective {as bs : Bytes} (hl : as.length = bs.length)
    (hn : as.toNat = bs.toNat) : as = bs := by
  induction as generalizing bs with
  | nil => exact (List.eq_nil_of_length_eq_zero hl.symm).symm
  | cons a as ih =>
    obtain _ | ⟨b, bs⟩ := bs
    · simp at hl
    · have hlen : as.length = bs.length := by simpa using hl
      have ha := toNat_lt as
      have hb := toNat_lt bs
      rw [toNat_cons, toNat_cons, ← hlen] at hn
      rw [← hlen] at hb
      have hpos : 0 < 256 ^ as.length := Nat.pow_pos (by decide)
      have hdiv (x : Nat) {t : Nat} (ht : t < 256 ^ as.length) :
          (x * 256 ^ as.length + t) / 256 ^ as.length = x := by
        rw [Nat.add_comm, Nat.add_mul_div_right _ _ hpos, Nat.div_eq_of_lt ht, Nat.zero_add]
      have hhead : a.toNat = b.toNat := by
        rw [← hdiv a.toNat ha, hn, hdiv b.toNat hb]
      have htail : toNat as = toNat bs := by
        rw [hhead] at hn
        omega
      rw [UInt8.toNat_inj.mp hhead, ih hlen htail]

theorem ofNat_toNat (bs : Bytes) : ofNat bs.length bs.toNat = bs :=
  toNat_injective (length_ofNat _ _) (toNat_ofNat (toNat_lt bs))

theorem toInt_ofNat {w n : Nat} (h : 2 * n < 256 ^ w) : toInt (ofNat w n) = n := by
  have hp : 1 <<< (8 * w) = 256 ^ w := by
    rw [Nat.shiftLeft_eq, Nat.one_mul, two_pow_mul_eight]
  rw [toInt, toNat_ofNat (by omega), length_ofNat, hp]
  exact Int.bmod_eq_of_le (by omega) (by omega)

theorem toInt_lt {bs : Bytes} {w : Nat} (h : bs.length = w + 1) :
    bs.toInt < ((2 ^ (8 * w + 7) : Nat) : Int) := by
  have hrange : 1 <<< (8 * bs.length) = 2 * 2 ^ (8 * w + 7) := by
    rw [Nat.shiftLeft_eq, Nat.one_mul, h, ← Nat.pow_succ']
    rfl
  have hpos : 0 < 2 * 2 ^ (8 * w + 7) := Nat.mul_pos (by decide) (Nat.two_pow_pos _)
  have hlt : Int.bmod bs.toNat (2 * 2 ^ (8 * w + 7)) < _ := Int.bmod_lt hpos
  rw [toInt, hrange]
  omega

end CipherLink.Bytes
