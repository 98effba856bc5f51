import CipherLink.Algorithm.Container
import CipherLink.Proofs.Places
import CipherLink.Proofs.Selection
import CipherLink.Proofs.Utf8Order
import Mathlib.Data.List.Induction

/-!
# Containers over their history

What a container holds under an identifier is decided by the last call that concerned this
identifier: the algorithm that it added, or nothing if it was a removal. The list of what is
supported has one descriptor for each identifier that is held, in the order of the bytes of
the identifiers, so the algorithm that is looked up for a selected descriptor is the one that
was described by it.
-/

namespace CipherLink

open Algorithm (descriptor identifier Precedes)

namespace Container

variable {α : Type} [Algorithm α]

theorem find?_insertInto (a : α) (bs : List α) (id : String) :
    (insertInto a bs).find? (fun b => identifier b = id) =
      if identifier a = id then some a else bs.find? fun b => identifier b = id := by
  induction bs with
  | nil => by_cases ha : identifier a = id <;> simp [insertInto, ha]
  | cons b bs ih =>
    unfold insertInto
    split
    · by_cases ha : identifier a = id <;> simp [ha]
    · split
      · next hsame => by_cases ha : identifier a = id <;> simp [← hsame, ha]
      · next hother =>
        by_cases hb : identifier b = id
        · have ha : identifier a ≠ id := fun ha => hother (ha.trans hb.symm)
          simp [hb, ha]
        · simp [hb, ih]

theorem get?_insert (c : Container α) (a : α) (id : String) :
    (c.insert a).get? id = if identifier a = id then some a else c.get? id :=
  find?_insertInto a c.algorithms id

theorem get?_erase (c : Container α) (removed id : String) :
    (c.erase removed).get? id = if removed = id then none else c.get? id := by
  rw [get?, erase, List.find?_filter]
  split
  · next hsame =>
    subst hsame
    simp
  · next hother =>
    rw [get?]
    congr 1
    funext b
    by_cases hb : identifier b = id
    · simp [hb, Ne.symm hother]
    · simp [hb]

theorem get?_change (c : Container α) (x : Change α) (id : String) :
    (c.change x).get? id = if x.identifier = id then
        match x with
        | .add a => some a
        | .remove _ => none
      else c.get? id := by
  cases x with
  | add a => exact get?_insert c a id
  | remove a => exact get?_erase c (identifier a) id

theorem identifier_of_get? {c : Container α} {id : String} {a : α} (h : c.get? id = some a) :
    identifier a = id := by
  simpa using List.find?_some h

theorem mem_algorithms_iff {c : Container α} {a : α} :
    a ∈ c.algorithms ↔ c.get? (identifier a) = some a :=
  ⟨c.get?_identifier, List.mem_of_find?_eq_some⟩

/-- Whether the last of the calls that concerned the identifier of `a` added `a`. -/
def LastAdded (history : List (Change α)) (a : α) : Prop :=
  ∃ before after, history = before ++ .add a :: after ∧ ∀ x ∈ after, x.identifier ≠ identifier a

theorem lastAdded_iff {history : List (Change α)} {a : α} : LastAdded history a ↔
    ∃ before x after, history = before ++ x :: after ∧ x = .add a ∧
      ∀ y ∈ after, y.identifier ≠ identifier a := by
  constructor
  · rintro ⟨before, after, hsplit, hafter⟩
    exact ⟨before, _, after, hsplit, rfl, hafter⟩
  · rintro ⟨before, _, after, hsplit, rfl, hafter⟩
    exact ⟨before, after, hsplit, hafter⟩

theorem lastAdded_concat {history : List (Change α)} {x : Change α} {a : α} :
    LastAdded (history ++ [x]) a ↔
      x = .add a ∨ x.identifier ≠ identifier a ∧ LastAdded history a := by
  rw [lastAdded_iff, lastAdded_iff]
  exact exists_last_concat

theorem changeAll_append (c : Container α) (changes others : List (Change α)) :
    c.changeAll (changes ++ others) = (c.changeAll changes).changeAll others :=
  List.foldl_append

theorem ofList_eq_changeAll (as : List α) : ofList as = empty.changeAll (as.map .add) := by
  rw [changeAll, List.foldl_map]
  rfl

theorem get?_changeAll (history : List (Change α)) (id : String) (a : α) :
    (empty.changeAll history).get? id = some a ↔ identifier a = id ∧ LastAdded history a := by
  -- By induction on the calls: the last one decides, or leaves the matter to those before it.
  induction history using List.reverseRecOn with
  | nil => simp [changeAll, empty, get?, LastAdded]
  | append_singleton history x ih =>
    rw [changeAll_append, lastAdded_concat]
    change ((empty.changeAll history).change x).get? id = some a ↔ _
    rw [get?_change]
    split
    · next hsame =>
      cases x with
      | add b =>
        simp only [Option.some.injEq, Change.add.injEq]
        constructor
        · rintro rfl
          exact ⟨hsame, .inl rfl⟩
        · rintro ⟨hid, rfl | ⟨hother, -⟩⟩
          · rfl
          · exact absurd (hsame.trans hid.symm) hother
      | remove b =>
        simp only [reduceCtorEq, false_or, false_iff, not_and]
        exact fun hid hother => absurd (hsame.trans hid.symm) hother
    · next hother =>
      rw [ih]
      refine and_congr_right fun hid => ?_
      subst hid
      constructor
      · exact fun h => .inr ⟨hother, h⟩
      · rintro (rfl | ⟨-, h⟩)
        · exact absurd rfl hother
        · exact h

theorem filter_identifier {as : List α} (hsorted : as.Pairwise Precedes) (id : String) :
    as.filter (fun a => identifier a = id) =
      (as.find? fun a => identifier a = id).toList := by
  induction as with
  | nil => rfl
  | cons a as ih =>
    obtain ⟨ha, has⟩ := List.pairwise_cons.mp hsorted
    by_cases hid : identifier a = id
    · have hothers : as.filter (fun b => identifier b = id) = [] := by
        rw [List.filter_eq_nil_iff]
        intro b hb hsame
        exact (ha b hb).ne (hid.trans (of_decide_eq_true hsame).symm)
      simp [hid, hothers]
    · simp [hid, ih has]

theorem filter_supported (c : Container α) (id : String) :
    c.supported.filter (fun d => d.identifier = id) = ((c.get? id).map descriptor).toList := by
  rw [supported, List.filter_map, Option.toList_map, get?, ← filter_identifier c.sorted id]
  rfl

theorem supported_sorted (c : Container α) :
    c.supported.Pairwise fun d e => Bytes.ofString d.identifier < Bytes.ofString e.identifier := by
  rw [supported, List.pairwise_map]
  exact c.sorted.imp Bytes.ofString_lt

theorem isSome_get?_iff (c : Container α) (id : String) :
    (c.get? id).isSome = true ↔ ∃ d ∈ c.supported, d.identifier = id := by
  rw [Option.isSome_iff_exists]
  constructor
  · rintro ⟨a, ha⟩
    obtain rfl := identifier_of_get? ha
    exact ⟨descriptor a, List.mem_map_of_mem (mem_algorithms_iff.mpr ha), rfl⟩
  · rintro ⟨d, hd, rfl⟩
    obtain ⟨a, ha, rfl⟩ := List.mem_map.mp hd
    exact ⟨a, c.get?_identifier ha⟩

theorem map_descriptor_selectStrongest (c : Container α) (theirs : List Descriptor) :
    (c.selectStrongest theirs).map descriptor =
      Descriptor.selectStrongest c.supported theirs := by
  cases hchosen : Descriptor.selectStrongest c.supported theirs with
  | none => simp [selectStrongest, hchosen]
  | some d =>
    obtain ⟨a, ha, rfl⟩ := List.mem_map.mp (Descriptor.mem_of_selectStrongest hchosen).1
    have hget : c.get? (descriptor a).identifier = some a := c.get?_identifier ha
    simp [selectStrongest, hchosen, hget]

end Container

open Container (Change LastAdded)

/-- A container that was filled from a list and changed by any calls holds, under each
identifier, the last algorithm that was added for it since it was last removed, and nothing
else. Its descriptors stand in the order of the bytes of their identifiers, one for each that
is held; a removal tells whether its identifier was held and touches no other; and a selection
is that of the descriptors. -/
theorem container_follows_history {α : Type} [Algorithm α] (first : List α)
    (changes : List (Change α)) :
    let c := (Container.ofList first).changeAll changes
    let history := first.map Change.add ++ changes
    (∀ id a, c.get? id = some a ↔ identifier a = id ∧ LastAdded history a) ∧
    (∀ a, a ∈ c.algorithms ↔ c.get? (identifier a) = some a) ∧
    (c.supported.Pairwise fun d e => Bytes.ofString d.identifier < Bytes.ofString e.identifier) ∧
    (∀ id, c.supported.filter (fun d => d.identifier = id) =
      ((c.get? id).map descriptor).toList) ∧
    (∀ a, ((c.remove a).1 = true ↔ ∃ d ∈ c.supported, d.identifier = identifier a) ∧
      ∀ id, (c.remove a).2.get? id = if identifier a = id then none else c.get? id) ∧
    ∀ theirs, (c.selectStrongest theirs).map descriptor =
      Descriptor.selectStrongest c.supported theirs := by
  intro c history
  have hc : c = Container.empty.changeAll history := by
    rw [Container.changeAll_append, ← Container.ofList_eq_changeAll]
  refine ⟨?_, fun a => Container.mem_algorithms_iff, c.supported_sorted, c.filter_supported, ?_,
    c.map_descriptor_selectStrongest⟩
  · intro id a
    rw [hc]
    exact Container.get?_changeAll history id a
  · intro a
    exact ⟨c.isSome_get?_iff (identifier a), c.get?_erase (identifier a)⟩

end CipherLink
