import CipherLink.Proofs.Selection
import CipherLink.Proofs.Utf8Order

/-!
# The selection as a maximum

What is selected from two lists of offers is the last of the greatest entries of the first
list that an entry of the second one matches, for all lists: entries may be repeated, and
those that match may differ in their block sizes. The two sides of a link, each with its own
list first and both lists in any order, come to matching selections or both to none.
-/

namespace CipherLink

namespace Descriptor

variable {a b d x : Descriptor} {ours theirs ours' theirs' : List Descriptor}

/-- Whether the strength, the key size and the bytes of the identifier, compared in this
order, are greater in `a` than in `b`. -/
def Exceeds (a b : Descriptor) : Prop :=
  b.strength < a.strength ∨ b.strength = a.strength ∧
    (b.keySize < a.keySize ∨ b.keySize = a.keySize ∧
      Bytes.ofString b.identifier < Bytes.ofString a.identifier)

instance (a b : Descriptor) : Decidable (a.Exceeds b) :=
  inferInstanceAs (Decidable (_ ∨ _))

theorem exceeds_iff : a.Exceeds b ↔ b.rank < a.rank := by
  rw [← outranks_iff]
  simp only [Exceeds, Outranks, Bytes.ofString_lt_iff]

theorem exists_split_of_selectStrongest (h : selectStrongest ours theirs = some d) :
    ∃ before after, ours = before ++ d :: after ∧
      (∀ x ∈ before, (∃ r ∈ theirs, r.isMatch x = true) → ¬x.Exceeds d) ∧
      ∀ x ∈ after, (∃ r ∈ theirs, r.isMatch x = true) → d.Exceeds x := by
  obtain ⟨front, back, hsplit, hfront, hback⟩ := lastGreatest_of_greatest? h
  -- The list is cut where its common entries are.
  rw [common, List.filter_eq_append_iff] at hsplit
  obtain ⟨before, behind, rfl, rfl, hbehind⟩ := hsplit
  obtain ⟨others, after, rfl, hothers, -, rfl⟩ := List.filter_eq_cons_iff.mp hbehind
  refine ⟨before ++ others, after, by simp only [List.append_assoc], ?_, ?_⟩
  · intro x hx hmatch
    have hcommon := List.any_eq_true.mpr hmatch
    obtain hx | hx := List.mem_append.mp hx
    · rw [exceeds_iff, not_lt]
      exact hfront x (List.mem_filter.mpr ⟨hx, hcommon⟩)
    · exact absurd hcommon (hothers x hx)
  · intro x hx hmatch
    exact exceeds_iff.mpr (hback x (List.mem_filter.mpr ⟨hx, List.any_eq_true.mpr hmatch⟩))

theorem selectStrongest_eq_none_of_perm (hours : ours'.Perm ours) (htheirs : theirs'.Perm theirs)
    (h : selectStrongest ours theirs = none) : selectStrongest theirs' ours' = none := by
  rw [selectStrongest_eq_none] at h ⊢
  intro r hr a ha
  have hnone := h a (hours.subset ha) r (htheirs.subset hr)
  exact Bool.eq_false_iff.mpr fun hmatch => Bool.eq_false_iff.mp hnone (isMatch_symm hmatch)

theorem isSome_selectStrongest_of_perm (hours : ours'.Perm ours) (htheirs : theirs'.Perm theirs) :
    (selectStrongest theirs' ours').isSome = (selectStrongest ours theirs).isSome := by
  rw [← Option.not_isNone, ← Option.not_isNone, Bool.not_inj_iff, Bool.eq_iff_iff,
    Option.isNone_iff_eq_none, Option.isNone_iff_eq_none]
  exact ⟨selectStrongest_eq_none_of_perm htheirs.symm hours.symm,
    selectStrongest_eq_none_of_perm hours htheirs⟩

theorem isMatch_of_perm (hours : ours'.Perm ours) (htheirs : theirs'.Perm theirs)
    (h : selectStrongest ours theirs = some a) (h' : selectStrongest theirs' ours' = some b) :
    a.isMatch b = true := by
  have hle := rank_le_of_subset hours.symm.subset htheirs.symm.subset h h'
  have hge := rank_le_of_subset htheirs.subset hours.subset h' h
  exact isMatch_iff_rank.mpr (le_antisymm hle hge)

end Descriptor

open Descriptor (selectStrongest)

/-- Nothing is selected if and only if no entry of the one list matches an entry of the
other. What is selected matches an entry of the other list and stands at a place of the
first one where no matching entry in front of it exceeds it by strength, key size and
identifier bytes, while it exceeds every matching entry behind it. The other side, with the
lists in any order, selects something if and only if this side does, and then a match. -/
theorem selectStrongest_symmetric_maximum (ours theirs : List Descriptor) :
    (selectStrongest ours theirs = none ↔ ∀ a ∈ ours, ∀ r ∈ theirs, r.isMatch a = false) ∧
    (∀ d, selectStrongest ours theirs = some d →
      (∃ r ∈ theirs, r.isMatch d = true) ∧ ∃ before after, ours = before ++ d :: after ∧
        (∀ x ∈ before, (∃ r ∈ theirs, r.isMatch x = true) → ¬x.Exceeds d) ∧
        ∀ x ∈ after, (∃ r ∈ theirs, r.isMatch x = true) → d.Exceeds x) ∧
    ∀ ours' theirs', ours'.Perm ours → theirs'.Perm theirs →
      (selectStrongest theirs' ours').isSome = (selectStrongest ours theirs).isSome ∧
      ∀ a b, selectStrongest ours theirs = some a → selectStrongest theirs' ours' = some b →
        a.isMatch b = true := by
  refine ⟨Descriptor.selectStrongest_eq_none, ?_, ?_⟩
  · intro d hselect
    exact ⟨(Descriptor.mem_of_selectStrongest hselect).2,
      Descriptor.exists_split_of_selectStrongest hselect⟩
  · intro ours' theirs' hours htheirs
    refine ⟨Descriptor.isSome_selectStrongest_of_perm hours htheirs, ?_⟩
    intro a b ha hb
    exact Descriptor.isMatch_of_perm hours htheirs ha hb

/-- Equal strengths and sizes, entries that differ in their block sizes alone, and
identifiers of three and of four bytes: the last of the three greatest is selected, and the
other side selects the entry of its own list that matches it. -/
theorem selectStrongest_symmetric_maximum_of_ties :
    let clef (block : Option UInt32) : Descriptor := ⟨"𝄞", 256, 256, block⟩
    let ours := [clef (some 64), ⟨"ﬁ", 256, 256, none⟩, clef none, clef (some 128),
      ⟨"AES", 512, 128, none⟩, ⟨"AES", 512, 512, none⟩]
    let theirs := [⟨"AES", 512, 128, none⟩, clef (some 8), ⟨"ﬁ", 256, 256, none⟩, clef (some 16)]
    selectStrongest ours theirs = some (clef (some 128)) ∧
      (∃ before after, ours = before ++ clef (some 128) :: after ∧
        (∀ x ∈ before, (∃ r ∈ theirs, r.isMatch x = true) → ¬x.Exceeds (clef (some 128))) ∧
        ∀ x ∈ after, (∃ r ∈ theirs, r.isMatch x = true) → (clef (some 128)).Exceeds x) ∧
      ours.reverse.Perm ours ∧ theirs.reverse.Perm theirs ∧
      selectStrongest theirs.reverse ours.reverse = some (clef (some 8)) ∧
      (clef (some 128)).isMatch (clef (some 8)) = true := by
  intro clef ours theirs
  have hours : selectStrongest ours theirs = some (clef (some 128)) := by decide +kernel
  have htheirs : selectStrongest theirs.reverse ours.reverse = some (clef (some 8)) := by
    decide +kernel
  obtain ⟨-, hgreatest, hsides⟩ := selectStrongest_symmetric_maximum ours theirs
  obtain ⟨-, hmatch⟩ := hsides _ _ ours.reverse_perm theirs.reverse_perm
  exact ⟨hours, (hgreatest _ hours).2, ours.reverse_perm, theirs.reverse_perm, htheirs,
    hmatch _ _ hours htheirs⟩

end CipherLink
