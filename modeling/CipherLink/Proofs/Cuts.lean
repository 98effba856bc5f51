import CipherLink.Proofs.Chaining
import CipherLink.Transform

/-!
# Streams cut into buffers

A transform does to a buffer what it does to the two halves of it, one behind the
other, wherever it is cut between two blocks. So a stream may be cut into buffers in
any way, and in other ways at its two ends: what is made of the buffers one after
another is what is made of the whole, and buffers that are refused in between make no
difference.
-/

namespace CipherLink

open Aes (Block)

theorem wholeBlocks_of_not_dvd {bs : Bytes} (h : ¬ Cipher.blockLength ∣ bs.length) :
    wholeBlocks bs = .error (.unalignedBuffer bs.length Cipher.blockLength) := by
  cases hblocks : wholeBlocks bs with
  | ok xs =>
    rw [← concat_of_wholeBlocks hblocks, Block.length_concat] at h
    exact absurd (Nat.dvd_mul_right _ _) h
  | error cause =>
    rw [wholeBlocks] at hblocks
    split at hblocks
    · simp at hblocks
    · exact hblocks.symm

namespace Transform

/-- How a transform takes its buffers: those of whole blocks as parts of one stream, and
all others not at all. -/
structure Streams {τ : Type} (apply : τ → Bytes → Except CryptoError (Bytes × τ)) : Prop where
  nil (t : τ) : apply t [] = .ok ([], t)
  takes (t : τ) {bs : Bytes} (h : Cipher.blockLength ∣ bs.length) :
    ∃ made next, apply t bs = .ok (made, next)
  refuses (t : τ) {bs : Bytes} (h : ¬ Cipher.blockLength ∣ bs.length) :
    apply t bs = .error (.unalignedBuffer bs.length Cipher.blockLength)
  append {t next last : τ} {front rest made more : Bytes}
    (hfront : apply t front = .ok (made, next)) (hrest : apply next rest = .ok (more, last)) :
    apply t (front ++ rest) = .ok (made ++ more, last)

section

variable {τ : Type} {apply : τ → Bytes → Except CryptoError (Bytes × τ)}

theorem streams_of_blocks (f : τ → List Block → List Block × τ)
    (hrefuses : ∀ t bs, ¬ Cipher.blockLength ∣ bs.length →
      apply t bs = .error (.unalignedBuffer bs.length Cipher.blockLength))
    (hblocks : ∀ t xs, apply t (Block.concat xs) = .ok (Block.concat (f t xs).1, (f t xs).2))
    (hnil : ∀ t, f t [] = ([], t))
    (happend : ∀ t xs ys, f t (xs ++ ys) = ((f t xs).1 ++ (f (f t xs).2 ys).1,
      (f (f t xs).2 ys).2)) : Streams apply := by
  have hconcat {t next : τ} {bs made : Bytes} (h : apply t bs = .ok (made, next)) :
      ∃ xs, Block.concat xs = bs ∧ made = Block.concat (f t xs).1 ∧ next = (f t xs).2 := by
    obtain ⟨xs, rfl⟩ : ∃ xs, Block.concat xs = bs := by
      apply Block.exists_concat
      by_contra hpart
      rw [hrefuses t bs hpart] at h
      simp at h
    rw [hblocks, Except.ok.injEq, Prod.mk.injEq] at h
    exact ⟨xs, rfl, h.1.symm, h.2.symm⟩
  refine ⟨?_, ?_, fun t bs => hrefuses t bs, ?_⟩
  · intro t
    have hempty := hblocks t []
    rwa [hnil] at hempty
  · intro t bs hwhole
    obtain ⟨xs, rfl⟩ := Block.exists_concat hwhole
    exact ⟨_, _, hblocks t xs⟩
  · intro t next last front rest made more hfront hrest
    obtain ⟨xs, rfl, rfl, rfl⟩ := hconcat hfront
    obtain ⟨ys, rfl, rfl, rfl⟩ := hconcat hrest
    rw [← Block.concat_append, hblocks, happend, Block.concat_append]

def streamOf (buffers : List Bytes) : Bytes :=
  (buffers.filter fun buffer => Cipher.blockLength ∣ buffer.length).flatten

def refusal? (buffer : Bytes) : Option CryptoError :=
  if Cipher.blockLength ∣ buffer.length then none
  else some (.unalignedBuffer buffer.length Cipher.blockLength)

/-- What calls one after another come to: the parts of one stream, and refusals that
leave both the buffer and the transform as they were. -/
structure Comes (apply : τ → Bytes → Except CryptoError (Bytes × τ)) (t : τ)
    (buffers : List Bytes) (made : Bytes) (last : τ) : Prop where
  made : ((treatAll apply t buffers).1.filterMap Treated.done?).flatten = made
  last : (treatAll apply t buffers).2 = last
  results : (treatAll apply t buffers).1.map Treated.refusal = buffers.map refusal?
  refused : ∀ before buffer later, buffers = before ++ buffer :: later →
    ¬ Cipher.blockLength ∣ buffer.length →
    treat apply (treatAll apply t before).2 buffer =
      (⟨buffer, some (.unalignedBuffer buffer.length Cipher.blockLength)⟩,
        (treatAll apply t before).2)

theorem streamOf_cons (buffer : Bytes) (buffers : List Bytes) :
    streamOf (buffer :: buffers) =
      if Cipher.blockLength ∣ buffer.length then buffer ++ streamOf buffers
      else streamOf buffers := by
  by_cases hwhole : Cipher.blockLength ∣ buffer.length <;> simp [streamOf, hwhole]

theorem Streams.treat_part (h : Streams apply) (t : τ) {buffer : Bytes}
    (hpart : ¬ Cipher.blockLength ∣ buffer.length) :
    treat apply t buffer =
      (⟨buffer, some (.unalignedBuffer buffer.length Cipher.blockLength)⟩, t) := by
  rw [treat, h.refuses t hpart]

theorem Streams.exists_treatAll (h : Streams apply) (t : τ) (buffers : List Bytes) :
    ∃ made last, apply t (streamOf buffers) = .ok (made, last) ∧
      ((treatAll apply t buffers).1.filterMap Treated.done?).flatten = made ∧
      (treatAll apply t buffers).2 = last ∧
      (treatAll apply t buffers).1.map Treated.refusal = buffers.map refusal? := by
  induction buffers generalizing t with
  | nil => exact ⟨[], t, h.nil t, rfl, rfl, rfl⟩
  | cons buffer buffers ih =>
    rw [streamOf_cons]
    by_cases hwhole : Cipher.blockLength ∣ buffer.length
    · obtain ⟨made, next, happly⟩ := h.takes t hwhole
      obtain ⟨more, last, hmore, hmade, hlast, hresults⟩ := ih next
      refine ⟨made ++ more, last, ?_, ?_, ?_, ?_⟩
      · rw [if_pos hwhole]
        exact h.append happly hmore
      · simp [treatAll, treat, happly, Treated.done?, hmade]
      · simp only [treatAll, treat, happly, hlast]
      · simp [treatAll, treat, happly, hresults, refusal?, hwhole]
    · obtain ⟨made, last, happly, hmade, hlast, hresults⟩ := ih t
      refine ⟨made, last, ?_, ?_, ?_, ?_⟩
      · rwa [if_neg hwhole]
      · simp [treatAll, h.treat_part t hwhole, Treated.done?, hmade]
      · simp only [treatAll, h.treat_part t hwhole, hlast]
      · simp [treatAll, h.treat_part t hwhole, hresults, refusal?, hwhole]

theorem Streams.comes (h : Streams apply) {t last : τ} {buffers : List Bytes} {made : Bytes}
    (hstream : apply t (streamOf buffers) = .ok (made, last)) :
    Comes apply t buffers made last := by
  obtain ⟨made', last', happly, hmade, hlast, hresults⟩ := h.exists_treatAll t buffers
  rw [hstream, Except.ok.injEq, Prod.mk.injEq] at happly
  obtain ⟨rfl, rfl⟩ := happly
  refine ⟨hmade, hlast, hresults, ?_⟩
  rintro before buffer later - hpart
  exact h.treat_part _ hpart

end

end Transform

theorem Encryptor.streams : Transform.Streams Encryptor.apply := by
  refine Transform.streams_of_blocks (fun t xs => ((t.cipher.encrypt t.chain xs).1,
    { t with chain := (t.cipher.encrypt t.chain xs).2 })) ?_ apply_concat ?_ ?_
  · intro t bs hpart
    rw [apply, wholeBlocks_of_not_dvd hpart]
    rfl
  · rintro ⟨_ | _, chain⟩ <;> rfl
  · intro t xs ys
    simp only [Cipher.encrypt_append]

theorem Decryptor.streams : Transform.Streams Decryptor.apply := by
  refine Transform.streams_of_blocks (fun t xs => ((t.cipher.decrypt t.chain xs).1,
    { t with chain := (t.cipher.decrypt t.chain xs).2 })) ?_ apply_concat ?_ ?_
  · intro t bs hpart
    rw [apply, wholeBlocks_of_not_dvd hpart]
    rfl
  · rintro ⟨_ | _, chain⟩ <;> rfl
  · intro t xs ys
    simp only [Cipher.decrypt_append]

open Transform (Comes streamOf streamOf_cons)

/-- A stream of whole blocks is encrypted along any cutting as it is in one call, and
decrypted along any other cutting to what it was. Buffers that do not consist of whole
blocks may come in between on both sides: they are refused, and change nothing. -/
theorem transforms_ignore_cuts {a : SymmetricAlgorithm} {package : KeyPackage}
    {encryptor : Encryptor} (hkey : a.encryptor package = .ok encryptor) {plain : Bytes}
    (hplain : 16 ∣ plain.length) :
    ∃ decryptor cipher encryptor' decryptor', a.decryptor package = .ok decryptor ∧
      encryptor.apply plain = .ok (cipher, encryptor') ∧
      decryptor.apply cipher = .ok (plain, decryptor') ∧
      (∀ outgoing, streamOf outgoing = plain →
        Comes Encryptor.apply encryptor outgoing cipher encryptor') ∧
      ∀ incoming, streamOf incoming = cipher →
        Comes Decryptor.apply decryptor incoming plain decryptor' := by
  obtain ⟨cipher, encryptor', hencrypt⟩ := encryptor.exists_apply hplain
  have hdecrypt := Encryptor.peer_apply hencrypt
  refine ⟨encryptor.peer, cipher, encryptor', encryptor'.peer,
    SymmetricAlgorithm.decryptor_of_encryptor hkey, hencrypt, hdecrypt, ?_, ?_⟩
  · rintro outgoing rfl
    exact Encryptor.streams.comes hencrypt
  · rintro incoming rfl
    exact Decryptor.streams.comes hdecrypt

/-- Three blocks that are encrypted as one and two and decrypted as two and one, with an
empty buffer and two that are refused in between. -/
theorem transforms_ignore_cuts_aes :
    let package : KeyPackage := ⟨List.replicate 24 1, List.replicate 16 2⟩
    let front : Bytes := List.replicate 16 3
    let rest : Bytes := List.replicate 32 4
    ∃ encryptor decryptor cipher encryptor' decryptor',
      (SymmetricAlgorithm.aes 192).encryptor package = .ok encryptor ∧
      (SymmetricAlgorithm.aes 192).decryptor package = .ok decryptor ∧
      16 ∣ (front ++ rest).length ∧
      Comes Encryptor.apply encryptor [front, [1, 2, 3], [], rest] cipher encryptor' ∧
      Comes Decryptor.apply decryptor [cipher.take 32, [5], cipher.drop 32] (front ++ rest)
        decryptor' := by
  intro package front rest
  have hkey : (((SymmetricAlgorithm.aes 192).encryptor package).toOption).isSome = true := by
    decide +kernel
  obtain ⟨encryptor, hkey⟩ := Option.isSome_iff_exists.mp hkey
  have hkey := eq_ok_of_toOption hkey
  have hwhole : 16 ∣ (front ++ rest).length := by decide
  obtain ⟨decryptor, cipher, encryptor', decryptor', hdecryptor, hencrypt, -, hout, hin⟩ :=
    transforms_ignore_cuts hkey hwhole
  have hlength : cipher.length = 48 := Encryptor.length_of_apply hencrypt
  refine ⟨encryptor, decryptor, cipher, encryptor', decryptor', hkey, hdecryptor, hwhole,
    hout _ (by decide), hin _ ?_⟩
  have hhead : Cipher.blockLength ∣ (cipher.take 32).length := by
    rw [List.length_take, hlength]
    decide
  have htail : Cipher.blockLength ∣ (cipher.drop 32).length := by
    rw [List.length_drop, hlength]
    decide
  have hpart : ¬ Cipher.blockLength ∣ ([5] : Bytes).length := by decide
  rw [streamOf_cons, if_pos hhead, streamOf_cons, if_neg hpart, streamOf_cons, if_pos htail]
  simp [streamOf]

end CipherLink
