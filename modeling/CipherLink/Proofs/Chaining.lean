import CipherLink.Proofs.BlockCipher
import CipherLink.Transform
import Mathlib.Data.List.Basic

/-!
# Chaining over buffers

A buffer of whole blocks is the concatenation of its blocks, and a transform
works on these. Two transforms keyed alike stay alike: what one encrypts the
other decrypts, and both then hold the same chaining block. A buffer may be
decrypted in two pieces, wherever it is cut between two blocks.
-/

namespace CipherLink

namespace Aes.Block

def concat (blocks : List Block) : Bytes :=
  blocks.flatMap toBytes

@[simp] theorem length_toBytes (x : Block) : x.toBytes.length = length := rfl

theorem length_concat (xs : List Block) : (concat xs).length = length * xs.length := by
  induction xs with
  | nil => rfl
  | cons x xs ih =>
    simp only [concat, List.flatMap_cons, List.length_append, length_toBytes,
      List.length_cons] at ih ⊢
    rw [ih, Nat.mul_succ, Nat.add_comm]

@[simp] theorem concat_append (xs ys : List Block) : concat (xs ++ ys) = concat xs ++ concat ys := by
  simp [concat]

theorem ofBytes?_toBytes_append (x : Block) (bs : Bytes) :
    ofBytes? (x.toBytes ++ bs) = (ofBytes? bs).map (x :: ·) := by
  simp only [ofBytes?, toBytes, Column.toBytes, List.cons_append, List.nil_append, columns?]
  cases columns? bs with
  | none => rfl
  | some cs => simp only [Option.map_some, Option.bind_some, ofColumns?]

theorem ofBytes?_concat (xs : List Block) : ofBytes? (concat xs) = some xs := by
  induction xs with
  | nil => rfl
  | cons x xs ih =>
    rw [concat, List.flatMap_cons, ofBytes?_toBytes_append, ← concat, ih, Option.map_some]

theorem flatMap_of_columns? {bs : Bytes} {cs : List Column} (h : columns? bs = some cs) :
    cs.flatMap Column.toBytes = bs := by
  fun_induction columns? bs generalizing cs with
  | case1 =>
    obtain rfl : [] = cs := by simpa using h
    rfl
  | case2 a b c d rest ih =>
    obtain ⟨cs, hcs, rfl⟩ := Option.map_eq_some_iff.mp h
    rw [List.flatMap_cons, ih hcs]
    rfl
  | case3 => simp at h

theorem columns?_isSome (bs : Bytes) (h : 4 ∣ bs.length) :
    ∃ cs, columns? bs = some cs ∧ 4 * cs.length = bs.length := by
  fun_induction columns? bs with
  | case1 => exact ⟨[], rfl, rfl⟩
  | case2 a b c d rest ih =>
    simp only [List.length_cons] at h
    obtain ⟨cs, hcs, hlen⟩ := ih (by omega)
    refine ⟨⟨a, b, c, d⟩ :: cs, by rw [hcs, Option.map_some], ?_⟩
    simp only [List.length_cons]
    omega
  | case3 bs hnil hcons =>
    exfalso
    match bs with
    | [] => exact hnil rfl
    | [_] | [_, _] | [_, _, _] => simp at h
    | a :: b :: c :: d :: rest => exact hcons a b c d rest rfl

theorem flatMap_of_ofColumns? {cs : List Column} {xs : List Block} (h : ofColumns? cs = some xs) :
    xs.flatMap (fun x => [x.p, x.q, x.r, x.s]) = cs := by
  fun_induction ofColumns? cs generalizing xs with
  | case1 =>
    obtain rfl : [] = xs := by simpa using h
    rfl
  | case2 p q r s rest ih =>
    obtain ⟨xs, hxs, rfl⟩ := Option.map_eq_some_iff.mp h
    rw [List.flatMap_cons, ih hxs]
    rfl
  | case3 => simp at h

theorem ofColumns?_isSome (cs : List Column) (h : 4 ∣ cs.length) :
    ∃ xs, ofColumns? cs = some xs := by
  fun_induction ofColumns? cs with
  | case1 => exact ⟨[], rfl⟩
  | case2 p q r s rest ih =>
    simp only [List.length_cons] at h
    obtain ⟨xs, hxs⟩ := ih (by omega)
    exact ⟨⟨p, q, r, s⟩ :: xs, by rw [hxs, Option.map_some]⟩
  | case3 cs hnil hcons =>
    exfalso
    match cs with
    | [] => exact hnil rfl
    | [_] | [_, _] | [_, _, _] => simp at h
    | p :: q :: r :: s :: rest => exact hcons p q r s rest rfl

theorem concat_of_ofBytes? {bs : Bytes} {xs : List Block} (h : ofBytes? bs = some xs) :
    concat xs = bs := by
  obtain ⟨cs, hcs, hxs⟩ := Option.bind_eq_some_iff.mp h
  rw [← flatMap_of_columns? hcs, ← flatMap_of_ofColumns? hxs, List.flatMap_assoc]
  apply List.flatMap_congr
  intro x _
  simp [toBytes]

theorem exists_concat {bs : Bytes} (h : length ∣ bs.length) : ∃ xs, concat xs = bs := by
  simp only [length] at h
  obtain ⟨cs, hcs, hlen⟩ := columns?_isSome bs (by omega)
  obtain ⟨xs, hxs⟩ := ofColumns?_isSome cs (by omega)
  exact ⟨xs, concat_of_ofBytes? (by rw [ofBytes?, hcs, Option.bind_some, hxs])⟩

end Aes.Block

open Aes (Block)

theorem eq_ok_of_toOption {ε α : Type} {x : Except ε α} {a : α} (h : x.toOption = some a) :
    x = .ok a := by
  cases x with
  | error e => simp [Except.toOption] at h
  | ok b => exact congrArg Except.ok (Option.some.inj h)

theorem wholeBlocks_concat (xs : List Block) : wholeBlocks (Block.concat xs) = .ok xs := by
  simp only [wholeBlocks, Block.ofBytes?_concat]

theorem concat_of_wholeBlocks {bs : Bytes} {xs : List Block} (h : wholeBlocks bs = .ok xs) :
    Block.concat xs = bs := by
  rw [wholeBlocks] at h
  split at h
  · next hxs => exact Block.concat_of_ofBytes? (hxs.trans (congrArg some (Except.ok.inj h)))
  · simp at h

namespace Chain

theorem decrypt_encrypt {f g : Block → Block} (h : ∀ x, g (f x) = x) (last : Block)
    (xs : List Block) :
    decrypt g last (encrypt f last xs).1 = (xs, (encrypt f last xs).2) := by
  induction xs generalizing last with
  | nil => rfl
  | cons x xs ih => simp only [encrypt, decrypt, ih, h, Block.add_add_self]

theorem encrypt_append (f : Block → Block) (last : Block) (xs ys : List Block) :
    encrypt f last (xs ++ ys) =
      ((encrypt f last xs).1 ++ (encrypt f (encrypt f last xs).2 ys).1,
        (encrypt f (encrypt f last xs).2 ys).2) := by
  induction xs generalizing last with
  | nil => rfl
  | cons x xs ih => simp only [List.cons_append, encrypt, ih]

theorem decrypt_append (g : Block → Block) (last : Block) (xs ys : List Block) :
    decrypt g last (xs ++ ys) =
      ((decrypt g last xs).1 ++ (decrypt g (decrypt g last xs).2 ys).1,
        (decrypt g (decrypt g last xs).2 ys).2) := by
  induction xs generalizing last with
  | nil => rfl
  | cons x xs ih => simp only [List.cons_append, decrypt, ih]

theorem length_encrypt (f : Block → Block) (last : Block) (xs : List Block) :
    (encrypt f last xs).1.length = xs.length := by
  induction xs generalizing last with
  | nil => rfl
  | cons x xs ih => simp only [encrypt, List.length_cons, ih]

theorem length_decrypt (g : Block → Block) (last : Block) (ys : List Block) :
    (decrypt g last ys).1.length = ys.length := by
  induction ys generalizing last with
  | nil => rfl
  | cons y ys ih => simp only [decrypt, List.length_cons, ih]

end Chain

namespace Cipher

def encrypt (cipher : Cipher) (chain : Block) (xs : List Block) : List Block × Block :=
  match cipher with
  | .identity => (xs, chain)
  | .aes _ keys => Chain.encrypt keys.encrypt chain xs

def decrypt (cipher : Cipher) (chain : Block) (xs : List Block) : List Block × Block :=
  match cipher with
  | .identity => (xs, chain)
  | .aes _ keys => Chain.decrypt keys.decrypt chain xs

variable (cipher : Cipher) (chain : Block) (xs ys : List Block)

theorem decrypt_encrypt :
    cipher.decrypt chain (cipher.encrypt chain xs).1 = (xs, (cipher.encrypt chain xs).2) := by
  cases cipher with
  | identity => rfl
  | aes size keys => exact Chain.decrypt_encrypt keys.decrypt_encrypt chain xs

theorem encrypt_append :
    cipher.encrypt chain (xs ++ ys) =
      ((cipher.encrypt chain xs).1 ++ (cipher.encrypt (cipher.encrypt chain xs).2 ys).1,
        (cipher.encrypt (cipher.encrypt chain xs).2 ys).2) := by
  cases cipher with
  | identity => rfl
  | aes size keys => exact Chain.encrypt_append keys.encrypt chain xs ys

theorem decrypt_append :
    cipher.decrypt chain (xs ++ ys) =
      ((cipher.decrypt chain xs).1 ++ (cipher.decrypt (cipher.decrypt chain xs).2 ys).1,
        (cipher.decrypt (cipher.decrypt chain xs).2 ys).2) := by
  cases cipher with
  | identity => rfl
  | aes size keys => exact Chain.decrypt_append keys.decrypt chain xs ys

theorem length_encrypt : (cipher.encrypt chain xs).1.length = xs.length := by
  cases cipher with
  | identity => rfl
  | aes size keys => exact Chain.length_encrypt keys.encrypt chain xs

theorem length_decrypt : (cipher.decrypt chain xs).1.length = xs.length := by
  cases cipher with
  | identity => rfl
  | aes size keys => exact Chain.length_decrypt keys.decrypt chain xs

end Cipher

theorem Encryptor.apply_concat (t : Encryptor) (xs : List Block) :
    t.apply (Block.concat xs) = .ok (Block.concat (t.cipher.encrypt t.chain xs).1,
      { t with chain := (t.cipher.encrypt t.chain xs).2 }) := by
  obtain ⟨cipher, chain⟩ := t
  cases cipher <;> simp only [apply, wholeBlocks_concat] <;> rfl

theorem Decryptor.apply_concat (t : Decryptor) (xs : List Block) :
    t.apply (Block.concat xs) = .ok (Block.concat (t.cipher.decrypt t.chain xs).1,
      { t with chain := (t.cipher.decrypt t.chain xs).2 }) := by
  obtain ⟨cipher, chain⟩ := t
  cases cipher <;> simp only [apply, wholeBlocks_concat] <;> rfl

namespace Encryptor

/-- The transform that opens what this one encrypts from here on. -/
def peer (t : Encryptor) : Decryptor := ⟨t.cipher, t.chain⟩

theorem concat_of_apply {t t' : Encryptor} {bs cs : Bytes} (h : t.apply bs = .ok (cs, t')) :
    ∃ xs, Block.concat xs = bs := by
  cases hblocks : wholeBlocks bs with
  | error cause => simp [apply, hblocks, bind, Except.bind] at h
  | ok xs => exact ⟨xs, concat_of_wholeBlocks hblocks⟩

theorem length_of_apply {t t' : Encryptor} {bs cs : Bytes} (h : t.apply bs = .ok (cs, t')) :
    cs.length = bs.length := by
  obtain ⟨xs, rfl⟩ := concat_of_apply h
  rw [apply_concat, Except.ok.injEq, Prod.mk.injEq] at h
  rw [← h.1, Block.length_concat, Block.length_concat, Cipher.length_encrypt]

theorem peer_apply {t t' : Encryptor} {bs cs : Bytes} (h : t.apply bs = .ok (cs, t')) :
    t.peer.apply cs = .ok (bs, t'.peer) := by
  obtain ⟨xs, rfl⟩ := concat_of_apply h
  rw [apply_concat, Except.ok.injEq, Prod.mk.injEq] at h
  obtain ⟨rfl, rfl⟩ := h
  rw [Decryptor.apply_concat, peer, Cipher.decrypt_encrypt]
  rfl

theorem exists_apply (t : Encryptor) {bs : Bytes} (h : Cipher.blockLength ∣ bs.length) :
    ∃ cs t', t.apply bs = .ok (cs, t') := by
  obtain ⟨xs, rfl⟩ := Block.exists_concat h
  exact ⟨_, _, t.apply_concat xs⟩

end Encryptor

namespace Decryptor

theorem apply_nil (t : Decryptor) : t.apply [] = .ok ([], t) := by
  obtain ⟨_ | _, chain⟩ := t <;> rfl

theorem length_of_apply {t t' : Decryptor} {bs cs : Bytes} (h : t.apply bs = .ok (cs, t')) :
    Cipher.blockLength ∣ bs.length ∧ cs.length = bs.length := by
  cases hblocks : wholeBlocks bs with
  | error cause => simp [apply, hblocks, bind, Except.bind] at h
  | ok xs =>
    obtain rfl := concat_of_wholeBlocks hblocks
    rw [apply_concat, Except.ok.injEq, Prod.mk.injEq] at h
    refine ⟨by rw [Block.length_concat]; exact Nat.dvd_mul_right _ _, ?_⟩
    rw [← h.1, Block.length_concat, Block.length_concat, Cipher.length_decrypt]

theorem exists_apply (t : Decryptor) {bs : Bytes} (h : Cipher.blockLength ∣ bs.length) :
    ∃ cs t', t.apply bs = .ok (cs, t') := by
  obtain ⟨xs, rfl⟩ := Block.exists_concat h
  exact ⟨_, _, t.apply_concat xs⟩

theorem apply_pieces {t t' : Decryptor} {front rest plain : Bytes}
    (hfront : Cipher.blockLength ∣ front.length) (hrest : Cipher.blockLength ∣ rest.length)
    (h : t.apply (front ++ rest) = .ok (plain, t')) :
    ∃ t₁, t.apply front = .ok (plain.take front.length, t₁) ∧
      t₁.apply rest = .ok (plain.drop front.length, t') := by
  obtain ⟨xs, rfl⟩ := Block.exists_concat hfront
  obtain ⟨ys, rfl⟩ := Block.exists_concat hrest
  rw [← Block.concat_append, apply_concat, Cipher.decrypt_append, Except.ok.injEq,
    Prod.mk.injEq, Block.concat_append] at h
  obtain ⟨rfl, rfl⟩ := h
  have hlength : (Block.concat xs).length =
      (Block.concat (t.cipher.decrypt t.chain xs).1).length := by
    rw [Block.length_concat, Block.length_concat, Cipher.length_decrypt]
  refine ⟨{ t with chain := (t.cipher.decrypt t.chain xs).2 }, ?_, ?_⟩
  · rw [apply_concat, hlength, List.take_left]
  · rw [apply_concat, hlength, List.drop_left]

end Decryptor

namespace SymmetricAlgorithm

variable {a : SymmetricAlgorithm} {package : KeyPackage}

theorem encryptor_eq_ok {t : Encryptor} :
    a.encryptor package = .ok t ↔ a.keyed package = .ok (t.cipher, t.chain) := by
  rw [encryptor]
  cases a.keyed package with
  | error cause => simp [bind, Except.bind]
  | ok keyed =>
    obtain ⟨cipher, chain⟩ := keyed
    obtain ⟨cipher', chain'⟩ := t
    simp [bind, Except.bind, pure, Except.pure]

theorem decryptor_eq_ok {t : Decryptor} :
    a.decryptor package = .ok t ↔ a.keyed package = .ok (t.cipher, t.chain) := by
  rw [decryptor]
  cases a.keyed package with
  | error cause => simp [bind, Except.bind]
  | ok keyed =>
    obtain ⟨cipher, chain⟩ := keyed
    obtain ⟨cipher', chain'⟩ := t
    simp [bind, Except.bind, pure, Except.pure]

theorem decryptor_of_encryptor {e : Encryptor} (h : a.encryptor package = .ok e) :
    a.decryptor package = .ok e.peer :=
  decryptor_eq_ok.mpr (encryptor_eq_ok.mp h)

theorem peer_eq {e : Encryptor} {d : Decryptor} (he : a.encryptor package = .ok e)
    (hd : a.decryptor package = .ok d) : e.peer = d := by
  have hpeer := decryptor_of_encryptor he
  rw [hd, Except.ok.injEq] at hpeer
  exact hpeer.symm

end SymmetricAlgorithm

end CipherLink
