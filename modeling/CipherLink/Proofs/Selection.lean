import CipherLink.Algorithm.Container
import CipherLink.Algorithm.Identifier
import Mathlib.Data.Prod.Lex
import Mathlib.Data.String.Basic

/-!
# The strongest common algorithm

Descriptors are ranked by strength, key size and identifier. The one that is
selected is offered by both sides, and no other common one outranks it; two sides
that select from each other's offers select the same algorithm.
-/

namespace CipherLink

namespace Descriptor

variable {a b c d : Descriptor} {ds ours theirs : List Descriptor}

/-- Whether `a` comes before `b` by strength, then key size, then identifier. -/
def Outranks (a b : Descriptor) : Prop :=
  b.strength < a.strength ∨ b.strength = a.strength ∧
    (b.keySize < a.keySize ∨ b.keySize = a.keySize ∧ b.identifier < a.identifier)

def rank (d : Descriptor) : ℕ ×ₗ ℕ ×ₗ String :=
  toLex (d.strength.toNat, toLex (d.keySize.toNat, d.identifier))

theorem outranks_iff : a.Outranks b ↔ b.rank < a.rank := by
  simp only [Outranks, rank, Prod.Lex.toLex_lt_toLex, UInt32.lt_iff_toNat_lt, UInt32.toNat_inj]

theorem isMatch_iff : a.isMatch b = true ↔
    a.identifier = b.identifier ∧ a.keySize = b.keySize ∧ a.strength = b.strength := by
  simp only [isMatch, Bool.and_eq_true, beq_iff_eq, and_assoc]

theorem isMatch_iff_rank : a.isMatch b = true ↔ a.rank = b.rank := by
  rw [isMatch_iff]
  simp only [rank, toLex_inj, Prod.mk.injEq, UInt32.toNat_inj]
  exact ⟨fun h => ⟨h.2.2, h.2.1, h.1⟩, fun h => ⟨h.2.2, h.2.1, h.1⟩⟩

theorem isMatch_symm (h : a.isMatch b = true) : b.isMatch a = true := by
  rw [isMatch_iff_rank] at h ⊢
  exact h.symm

theorem atMost_iff : a.atMost b = true ↔ a.rank ≤ b.rank := by
  rw [← not_lt, ← outranks_iff]
  unfold atMost Outranks
  by_cases hstrength : a.strength = b.strength
  · by_cases hsize : a.keySize = b.keySize
    · simp only [hstrength, hsize, ne_eq, not_true_eq_false, if_false, decide_eq_true_eq,
        UInt32.lt_irrefl, true_and, false_or, not_lt]
    · simp only [hstrength, hsize, ne_eq, not_true_eq_false, if_false, not_false_eq_true, if_true,
        decide_eq_true_eq, UInt32.lt_irrefl, true_and, false_or, Ne.symm hsize, false_and, or_false]
      rw [UInt32.not_lt]
      exact ⟨UInt32.le_of_lt, fun h => UInt32.lt_of_le_of_ne h hsize⟩
  · simp only [hstrength, ne_eq, not_false_eq_true, if_true, decide_eq_true_eq, Ne.symm hstrength,
      false_and, or_false]
    rw [UInt32.not_lt]
    exact ⟨UInt32.le_of_lt, fun h => UInt32.lt_of_le_of_ne h hstrength⟩

/-- The last of the greatest in a list: nothing in front of it is greater, and everything
behind it is less. -/
def LastGreatest (d : Descriptor) (ds : List Descriptor) : Prop :=
  ∃ before after, ds = before ++ d :: after ∧ (∀ x ∈ before, x.rank ≤ d.rank) ∧
    ∀ x ∈ after, x.rank < d.rank

theorem LastGreatest.mem (h : LastGreatest d ds) : d ∈ ds := by
  obtain ⟨before, after, rfl, -, -⟩ := h
  exact List.mem_append_right before List.mem_cons_self

theorem LastGreatest.le (h : LastGreatest d ds) : ∀ x ∈ ds, x.rank ≤ d.rank := by
  obtain ⟨before, after, rfl, hbefore, hafter⟩ := h
  intro x hx
  obtain hx | hx := List.mem_append.mp hx
  · exact hbefore x hx
  · obtain rfl | hx := List.mem_cons.mp hx
    · exact le_rfl
    · exact (hafter x hx).le

theorem LastGreatest.snoc (h : LastGreatest a ds) (b : Descriptor) :
    LastGreatest (if a.atMost b then b else a) (ds ++ [b]) := by
  split
  · next hle =>
    refine ⟨ds, [], rfl, ?_, List.forall_mem_nil _⟩
    intro x hx
    exact le_trans (h.le x hx) (atMost_iff.mp hle)
  · next hnot =>
    have hlt : b.rank < a.rank := lt_of_not_ge fun hle => hnot (atMost_iff.mpr hle)
    obtain ⟨before, after, rfl, hbefore, hafter⟩ := h
    refine ⟨before, after ++ [b], by rw [List.append_assoc, List.cons_append], hbefore, ?_⟩
    intro x hx
    obtain hx | hx := List.mem_append.mp hx
    · exact hafter x hx
    · exact List.mem_singleton.mp hx ▸ hlt

theorem LastGreatest.foldl (h : LastGreatest a ds) (others : List Descriptor) :
    LastGreatest (others.foldl (fun best d => if best.atMost d then d else best) a)
      (ds ++ others) := by
  induction others generalizing a ds with
  | nil => rwa [List.append_nil]
  | cons b others ih =>
    rw [List.append_cons, List.foldl_cons]
    exact ih (h.snoc b)

theorem lastGreatest_of_greatest? (h : greatest? ds = some d) : LastGreatest d ds := by
  cases ds with
  | nil => simp [greatest?] at h
  | cons first ds =>
    have hfirst : LastGreatest first [first] :=
      ⟨[], [], rfl, List.forall_mem_nil _, List.forall_mem_nil _⟩
    exact Option.some.inj h ▸ hfirst.foldl ds

theorem greatest?_eq_none : greatest? ds = none ↔ ds = [] := by
  cases ds <;> simp [greatest?]

theorem mem_common : d ∈ common ours theirs ↔ d ∈ ours ∧ ∃ r ∈ theirs, r.isMatch d = true := by
  simp only [common, List.mem_filter, List.any_eq_true]

theorem mem_of_selectStrongest (h : selectStrongest ours theirs = some d) :
    d ∈ ours ∧ ∃ r ∈ theirs, r.isMatch d = true :=
  mem_common.mp (lastGreatest_of_greatest? h).mem

theorem not_outranks_of_selectStrongest (h : selectStrongest ours theirs = some d)
    (ha : a ∈ ours) (hr : ∃ r ∈ theirs, r.isMatch a = true) : ¬a.Outranks d := by
  rw [outranks_iff, not_lt]
  exact (lastGreatest_of_greatest? h).le a (mem_common.mpr ⟨ha, hr⟩)

theorem selectStrongest_eq_none : selectStrongest ours theirs = none ↔
    ∀ a ∈ ours, ∀ r ∈ theirs, r.isMatch a = false := by
  rw [selectStrongest, greatest?_eq_none, common, List.filter_eq_nil_iff]
  simp only [List.any_eq_true, not_exists, not_and, Bool.not_eq_true]

theorem exists_selectStrongest (ha : a ∈ ours) (hr : ∃ r ∈ theirs, r.isMatch a = true) :
    ∃ d, selectStrongest ours theirs = some d := by
  obtain ⟨r, hr, hmatch⟩ := hr
  refine Option.ne_none_iff_exists'.mp fun hnone => ?_
  simp [selectStrongest_eq_none.mp hnone a ha r hr] at hmatch

theorem rank_le_of_subset {ours' theirs' : List Descriptor} (hours : ours ⊆ ours')
    (htheirs : theirs ⊆ theirs') (h : selectStrongest ours theirs = some a)
    (h' : selectStrongest theirs' ours' = some b) : a.rank ≤ b.rank := by
  obtain ⟨ha, r, hr, hmatch⟩ := mem_of_selectStrongest h
  have hcommon := mem_common.mpr ⟨htheirs hr, a, hours ha, isMatch_symm hmatch⟩
  have hrank := (lastGreatest_of_greatest? h').le r hcommon
  rwa [isMatch_iff_rank.mp hmatch] at hrank

theorem isMatch_of_selectStrongest (h : selectStrongest ours theirs = some a)
    (h' : selectStrongest theirs ours = some b) : a.isMatch b = true := by
  have hle := rank_le_of_subset (List.Subset.refl _) (List.Subset.refl _) h h'
  have hge := rank_le_of_subset (List.Subset.refl _) (List.Subset.refl _) h' h
  exact isMatch_iff_rank.mpr (le_antisymm hle hge)

end Descriptor

namespace Container

variable {α : Type} [Algorithm α]

open Algorithm (descriptor identifier Precedes)

theorem find?_identifier {as : List α} (hsorted : as.Pairwise Precedes) {a : α} (ha : a ∈ as) :
    as.find? (fun b => identifier b = identifier a) = some a := by
  induction as with
  | nil => simp at ha
  | cons b as ih =>
    obtain ⟨hb, has⟩ := List.pairwise_cons.mp hsorted
    rcases List.mem_cons.mp ha with rfl | ha
    · simp
    · have hne : identifier b ≠ identifier a := (hb a ha).ne
      rw [List.find?_cons_of_neg (by simpa using hne), ih has ha]

theorem get?_identifier (c : Container α) {a : α} (h : a ∈ c.algorithms) :
    c.get? (identifier a) = some a :=
  find?_identifier c.sorted h

theorem selectStrongest_eq_some {c : Container α} {theirs : List Descriptor} {a : α}
    (h : c.selectStrongest theirs = some a) :
    a ∈ c.algorithms ∧ Descriptor.selectStrongest c.supported theirs = some (descriptor a) := by
  obtain ⟨chosen, hchosen, hget⟩ := Option.bind_eq_some_iff.mp h
  obtain ⟨b, hb, rfl⟩ := List.mem_map.mp (Descriptor.mem_of_selectStrongest hchosen).1
  have hsame := c.get?_identifier hb
  rw [identifier, hget, Option.some.injEq] at hsame
  subst hsame
  exact ⟨hb, hchosen⟩

structure Strongest (c : Container α) (theirs : List Descriptor) (a : α) : Prop where
  mem : a ∈ c.algorithms
  offered : ∃ d ∈ theirs, d.identifier = (descriptor a).identifier ∧
    d.keySize = (descriptor a).keySize ∧ d.strength = (descriptor a).strength
  strongest : ∀ b ∈ c.algorithms, (∃ d ∈ theirs, d.identifier = (descriptor b).identifier ∧
    d.keySize = (descriptor b).keySize ∧ d.strength = (descriptor b).strength) →
      ¬(descriptor b).Outranks (descriptor a)

theorem strongest_of_selectStrongest {c : Container α} {theirs : List Descriptor} {a : α}
    (h : c.selectStrongest theirs = some a) : c.Strongest theirs a := by
  obtain ⟨ha, hchosen⟩ := selectStrongest_eq_some h
  obtain ⟨-, r, hr, hmatch⟩ := Descriptor.mem_of_selectStrongest hchosen
  refine ⟨ha, ⟨r, hr, Descriptor.isMatch_iff.mp hmatch⟩, ?_⟩
  rintro b hb ⟨d, hd, hsame⟩
  exact Descriptor.not_outranks_of_selectStrongest hchosen (List.mem_map_of_mem hb)
    ⟨d, hd, Descriptor.isMatch_iff.mpr hsame⟩

theorem isMatch_of_selectStrongest {c c' : Container α} {a b : α}
    (h : c.selectStrongest c'.supported = some a) (h' : c'.selectStrongest c.supported = some b) :
    (descriptor a).isMatch (descriptor b) = true :=
  Descriptor.isMatch_of_selectStrongest (selectStrongest_eq_some h).2
    (selectStrongest_eq_some h').2

theorem exists_selectStrongest {c : Container α} {theirs : List Descriptor} {a : α}
    (ha : a ∈ c.algorithms) (hr : ∃ r ∈ theirs, r.isMatch (descriptor a) = true) :
    ∃ b, c.selectStrongest theirs = some b := by
  obtain ⟨d, hd⟩ := Descriptor.exists_selectStrongest (List.mem_map_of_mem ha) hr
  obtain ⟨b, hb, rfl⟩ := List.mem_map.mp (Descriptor.mem_of_selectStrongest hd).1
  exact ⟨b, Option.bind_eq_some_iff.mpr ⟨_, hd, c.get?_identifier hb⟩⟩

section

variable {c c' : Container α}
  (hmatch : ∀ a b : α, (descriptor a).isMatch (descriptor b) = true → a = b)
include hmatch

theorem selectStrongest_eq_none_iff :
    c.selectStrongest c'.supported = none ↔ c.supported.Disjoint c'.supported := by
  constructor
  · intro hnone d hours htheirs
    obtain ⟨a, ha, rfl⟩ := List.mem_map.mp hours
    have hsame : (descriptor a).isMatch (descriptor a) = true :=
      Descriptor.isMatch_iff.mpr ⟨rfl, rfl, rfl⟩
    obtain ⟨b, hb⟩ := exists_selectStrongest ha ⟨_, htheirs, hsame⟩
    simp [hnone] at hb
  · intro hdisjoint
    cases hselect : c.selectStrongest c'.supported with
    | none => rfl
    | some a =>
      exfalso
      obtain ⟨ha, hchosen⟩ := selectStrongest_eq_some hselect
      obtain ⟨hmem, r, hr, hr'⟩ := Descriptor.mem_of_selectStrongest hchosen
      obtain ⟨b, -, rfl⟩ := List.mem_map.mp hr
      obtain rfl := hmatch b a hr'
      exact hdisjoint hmem hr

theorem selectStrongest_comm :
    c.selectStrongest c'.supported = c'.selectStrongest c.supported := by
  have hnone : c.selectStrongest c'.supported = none ↔ _ := selectStrongest_eq_none_iff hmatch
  have hnone' : c'.selectStrongest c.supported = none ↔ _ := selectStrongest_eq_none_iff hmatch
  cases h : c.selectStrongest c'.supported with
  | none => exact (hnone'.mpr (List.disjoint_comm.mp (hnone.mp h))).symm
  | some a =>
    cases h' : c'.selectStrongest c.supported with
    | none =>
      rw [hnone.mpr (List.disjoint_comm.mp (hnone'.mp h'))] at h
      exact h.symm
    | some b => rw [hmatch a b (isMatch_of_selectStrongest h h')]

end

end Container

theorem none_ne_append (family : String) (h : family.toList.head? ≠ some 'N')
    (hne : family ≠ "") (size : String) : "None" ≠ family ++ size := by
  intro heq
  have hhead := congrArg (fun s => s.toList.head?) heq
  simp only [String.toList_append, List.head?_append] at hhead
  cases hfamily : family.toList with
  | nil => exact hne (String.toList_eq_nil_iff.mp hfamily)
  | cons c cs =>
    rw [hfamily] at h hhead
    exact h hhead.symm

theorem KeyExchangeAlgorithm.eq_of_isMatch {a b : KeyExchangeAlgorithm}
    (h : a.descriptor.isMatch b.descriptor = true) : a = b := by
  obtain ⟨hidentifier, hsize, -⟩ := Descriptor.isMatch_iff.mp h
  have hnone := none_ne_append "RSA-" (by decide) (by decide)
  cases a with
  | identity =>
    cases b with
    | identity => rfl
    | rsa size => exact absurd hidentifier (hnone _)
  | rsa size =>
    cases b with
    | identity => exact absurd hidentifier.symm (hnone _)
    | rsa size' => exact congrArg rsa hsize

theorem SymmetricAlgorithm.eq_of_isMatch {a b : SymmetricAlgorithm}
    (h : a.descriptor.isMatch b.descriptor = true) : a = b := by
  obtain ⟨hidentifier, hsize, -⟩ := Descriptor.isMatch_iff.mp h
  have hnone := none_ne_append "AES-" (by decide) (by decide)
  cases a with
  | identity =>
    cases b with
    | identity => rfl
    | aes size => exact absurd hidentifier (hnone _)
  | aes size =>
    cases b with
    | identity => exact absurd hidentifier.symm (hnone _)
    | aes size' => exact congrArg aes hsize

end CipherLink
