import CipherLink.Proofs.Places
import CipherLink.Proofs.Server.Actions
import CipherLink.Registry
import Mathlib.Data.Finmap
import Mathlib.Data.List.Induction

/-!
# Registries as finite maps

A registry is a finite map from ids to handles, however it lists its entries: its calls are
those of the map, and so is what it shows of itself. Over a history of calls, the handle of an
id is the one that was registered while the id was free and was not handed out since.
-/

namespace CipherLink

abbrev ClientMap (α : Type) := Finmap fun _ : ClientId => α

namespace ClientMap

variable {α : Type}

open Registry (Call Answer)

/-- The answer to a call of a map in which the first registration stands, and the map behind
it. -/
def call (m : ClientMap α) : Call α → Answer α × ClientMap α
  | .register id a => if id ∈ m then (.registered false, m) else (.registered true, m.insert id a)
  | .unregister id => (.unregistered (m.lookup id), m.erase id)

def after (m : ClientMap α) (calls : List (Call α)) : ClientMap α :=
  calls.foldl (fun m c => (m.call c).2) m

def answers (m : ClientMap α) : List (Call α) → List (Answer α)
  | [] => []
  | c :: calls => (m.call c).1 :: answers (m.call c).2 calls

end ClientMap

namespace Registry

variable {α : Type} {r : Registry α} {id other : ClientId} {a b : α} {m : ClientMap α}
  {calls : List (Call α)}

theorem get?_eq_some_iff : r.get? id = some a ↔ (id, a) ∈ r.entries := by
  refine ⟨mem_of_get?, fun hmem => ?_⟩
  obtain ⟨b, hb⟩ := Option.ne_none_iff_exists'.mp (get?_ne_none hmem)
  rw [hb, eq_of_mem (mem_of_get? hb) hmem]

theorem contains_iff_exists : r.contains id = true ↔ ∃ a, r.get? id = some a := by
  rw [contains_iff, List.mem_map]
  constructor
  · rintro ⟨⟨id, a⟩, hmem, rfl⟩
    exact ⟨a, get?_eq_some_iff.mpr hmem⟩
  · rintro ⟨a, ha⟩
    exact ⟨(id, a), get?_eq_some_iff.mp ha, rfl⟩

theorem contains_eq_false_iff : r.contains id = false ↔ r.get? id = none := by
  rw [← Bool.not_eq_true, contains_iff_exists, Option.eq_none_iff_forall_ne_some, not_exists]

theorem register_of_contains (h : r.contains id = true) : r.register id a = (false, r) := by
  rw [register, dif_pos h]

theorem register_fst : (r.register id a).1 = !r.contains id := by
  rw [register]
  split
  · next h => simp [h]
  · next h => simp [h]

theorem get?_register (hfree : r.contains id = false) :
    (r.register id a).2.get? other = if other = id then some a else r.get? other := by
  have hentries : (r.register id a).2.entries = r.entries ++ [(id, a)] := by
    rw [register, dif_neg (by simp [hfree])]
  rw [get?, hentries, List.lookup_append]
  split
  · next h =>
    rw [h, ← get?, contains_eq_false_iff.mp hfree]
    simp
  · next h =>
    have hlast : [(id, a)].lookup other = none := by simp [h]
    rw [hlast, Option.or_none, get?]

theorem get?_unregister :
    (r.unregister id).2.get? other = if other = id then none else r.get? other := by
  refine Option.ext fun a => ?_
  rw [get?_eq_some_iff, unregister, List.mem_filter]
  split
  · next h => simp [h]
  · next h => simp [h, get?_eq_some_iff]

def toFinmap (r : Registry α) : ClientMap α where
  entries := ↑(r.entries.map fun entry => (⟨entry.1, entry.2⟩ : Sigma fun _ : ClientId => α))
  nodupKeys := by
    rw [Multiset.coe_nodupKeys, List.NodupKeys, List.keys, List.map_map]
    exact r.distinct

@[simp]
theorem lookup_toFinmap : r.toFinmap.lookup id = r.get? id := by
  refine Option.ext fun a => ?_
  rw [get?_eq_some_iff, ← Option.mem_def, Finmap.mem_lookup_iff, toFinmap, Multiset.mem_coe,
    List.mem_map]
  constructor
  · rintro ⟨⟨_, _⟩, hmem, heq⟩
    cases heq
    exact hmem
  · exact fun hmem => ⟨_, hmem, rfl⟩

theorem mem_toFinmap_iff : id ∈ r.toFinmap ↔ r.contains id = true := by
  rw [Finmap.mem_iff, contains_iff_exists, lookup_toFinmap]

/-- All that a registry shows of itself is shown by a map. The ids and the handles are listed
in no particular order. -/
structure Shows (r : Registry α) (m : ClientMap α) : Prop where
  contains_iff : ∀ id, r.contains id = true ↔ id ∈ m
  get?_eq : ∀ id, r.get? id = m.lookup id
  ids_eq : (r.ids : Multiset ClientId) = m.keys.val
  handles_eq : (r.handles : Multiset α) = m.entries.map Sigma.snd
  size_eq : r.size = m.keys.card
  isEmpty_iff : r.isEmpty = true ↔ m = ∅

theorem shows_toFinmap (r : Registry α) : r.Shows r.toFinmap where
  contains_iff id := mem_toFinmap_iff.symm
  get?_eq id := lookup_toFinmap.symm
  ids_eq := by simp [ids, toFinmap, Finmap.keys, Multiset.keys, Function.comp_def]
  handles_eq := by simp [handles, toFinmap, Function.comp_def]
  size_eq := by simp [size, toFinmap, Finmap.keys, Multiset.keys]
  isEmpty_iff := by
    rw [isEmpty, List.isEmpty_iff]
    constructor
    · intro h
      refine Finmap.ext_lookup fun id => ?_
      rw [lookup_toFinmap, get?, h]
      simp
    · intro h
      refine List.eq_nil_iff_forall_not_mem.mpr fun entry hmem => ?_
      have hnone : Finmap.lookup entry.1 r.toFinmap = r.get? entry.1 := lookup_toFinmap
      rw [h, Finmap.lookup_empty] at hnone
      exact get?_ne_none hmem hnone.symm

theorem toFinmap_empty : (empty : Registry α).toFinmap = ∅ :=
  Finmap.ext_lookup fun id => by simp [get?, empty]

theorem call_eq (r : Registry α) (c : Call α) :
    (r.call c).1 = (r.toFinmap.call c).1 ∧ (r.call c).2.toFinmap = (r.toFinmap.call c).2 := by
  cases c with
  | register id a =>
    rw [ClientMap.call]
    split
    · next hmem =>
      have hcall : r.call (.register id a) = (.registered false, r) := by
        rw [call, register_of_contains (mem_toFinmap_iff.mp hmem)]
      rw [hcall]
      exact ⟨rfl, rfl⟩
    · next hmem =>
      have hfree : r.contains id = false := Bool.not_eq_true _ ▸ mem_toFinmap_iff.not.mp hmem
      refine ⟨?_, Finmap.ext_lookup fun other => ?_⟩
      · exact congrArg Answer.registered (register_fst.trans (by rw [hfree, Bool.not_false]))
      · rw [lookup_toFinmap]
        refine (get?_register hfree).trans ?_
        split
        · next h => rw [h, Finmap.lookup_insert]
        · next h => rw [Finmap.lookup_insert_of_ne _ h, lookup_toFinmap]
  | unregister id =>
    refine ⟨congrArg Answer.unregistered lookup_toFinmap.symm, Finmap.ext_lookup fun other => ?_⟩
    rw [lookup_toFinmap]
    refine get?_unregister.trans ?_
    split
    · next h => rw [h, ClientMap.call, Finmap.lookup_erase]
    · next h => rw [ClientMap.call, Finmap.lookup_erase_ne h, lookup_toFinmap]

theorem after_eq (r : Registry α) (calls : List (Call α)) :
    (r.after calls).toFinmap = r.toFinmap.after calls := by
  induction calls generalizing r with
  | nil => rfl
  | cons c calls ih => exact (ih (r.call c).2).trans (by rw [(r.call_eq c).2]; rfl)

theorem answers_eq (r : Registry α) (calls : List (Call α)) :
    r.answers calls = r.toFinmap.answers calls := by
  induction calls generalizing r with
  | nil => rfl
  | cons c calls ih =>
    obtain ⟨hanswer, hbehind⟩ := r.call_eq c
    rw [answers, ih, hanswer, hbehind]
    rfl

theorem get?_call (c : Call α) : (r.call c).2.get? id = match c with
    | .register other a => if other = id ∧ r.get? id = none then some a else r.get? id
    | .unregister other => if other = id then none else r.get? id := by
  cases c with
  | register other b =>
    change (r.register other b).2.get? id = if other = id ∧ r.get? id = none then some b else _
    cases hfree : r.contains other with
    | true =>
      rw [register_of_contains hfree, if_neg]
      rintro ⟨rfl, hnone⟩
      simp [contains_eq_false_iff.mpr hnone] at hfree
    | false =>
      rw [get?_register hfree]
      by_cases hid : id = other
      · rw [if_pos hid, if_pos ⟨hid.symm, hid ▸ contains_eq_false_iff.mp hfree⟩]
      · rw [if_neg hid, if_neg fun h => hid h.1.symm]
  | unregister other =>
    change (r.unregister other).2.get? id = if other = id then none else _
    rw [get?_unregister]
    exact if_congr eq_comm rfl rfl

/-- Whether a handle was registered for an id that was free, and the id was not unregistered
since. -/
def Stands (calls : List (Call α)) (id : ClientId) (a : α) : Prop :=
  ∃ before after, calls = before ++ .register id a :: after ∧
    (empty.after before).get? id = none ∧ Call.unregister id ∉ after

theorem stands_concat {c : Call α} : Stands (calls ++ [c]) id a ↔
    c = .register id a ∧ (empty.after calls).get? id = none ∨
      c ≠ .unregister id ∧ Stands calls id a := by
  constructor
  · rintro ⟨before, after, hsplit, hfree, hafter⟩
    obtain ⟨rest, hcalls, rfl⟩ | ⟨rest, rfl, hlast⟩ := split_append hsplit
    · rw [List.mem_append, List.mem_singleton, not_or] at hafter
      exact .inr ⟨Ne.symm hafter.2, before, rest, hcalls, hfree, hafter.1⟩
    · obtain ⟨rfl, hlast⟩ | ⟨-, hnil⟩ := List.append_eq_singleton_iff.mp hlast.symm
      · rw [List.append_nil] at hfree
        exact .inl ⟨(List.cons.inj hlast).1, hfree⟩
      · cases hnil
  · rintro (⟨rfl, hfree⟩ | ⟨hc, before, after, rfl, hfree, hafter⟩)
    · exact ⟨calls, [], rfl, hfree, List.not_mem_nil⟩
    · refine ⟨before, after ++ [c], by simp, hfree, ?_⟩
      rw [List.mem_append, List.mem_singleton, not_or]
      exact ⟨hafter, Ne.symm hc⟩

theorem get?_after_iff (calls : List (Call α)) :
    (empty.after calls).get? id = some a ↔ Stands calls id a := by
  -- By induction on the calls: the last one registers a free id, or frees it, or leaves the
  -- matter to those before it.
  induction calls using List.reverseRecOn with
  | nil => simp [after, empty, get?, Stands]
  | append_singleton calls c ih =>
    have hafter : empty.after (calls ++ [c]) = ((empty.after calls).call c).2 := by
      rw [after, List.foldl_append]
      rfl
    rw [hafter, get?_call, stands_concat, ← ih]
    cases c with
    | register other b =>
      simp only [ne_eq, reduceCtorEq, not_false_eq_true, true_and, Call.register.injEq]
      split
      · next h => simp [h.1, h.2]
      · next h => tauto
    | unregister other =>
      simp only [reduceCtorEq, false_and, false_or, ne_eq, Call.unregister.injEq]
      split
      · next h => simp [h]
      · next h => simp [h]

def accepted? (id : ClientId) : Call α × Answer α → Option α
  | (.register other a, .registered true) => if other = id then some a else none
  | _ => none

def returned? (id : ClientId) : Call α × Answer α → Option α
  | (.unregister other, .unregistered handle) => if other = id then handle else none
  | _ => none

theorem toList_get?_call (c : Call α) :
    (r.get? id).toList ++ (accepted? id (c, (r.call c).1)).toList =
      (returned? id (c, (r.call c).1)).toList ++ ((r.call c).2.get? id).toList := by
  rw [get?_call]
  cases c with
  | register other a =>
    have hanswer : (r.call (.register other a)).1 = .registered (!r.contains other) :=
      congrArg Answer.registered register_fst
    rw [hanswer]
    by_cases hid : other = id
    · subst hid
      cases hget : r.get? other with
      | none => simp [contains_eq_false_iff.mpr hget, accepted?, returned?]
      | some b => simp [contains_iff_exists.mpr ⟨b, hget⟩, accepted?, returned?]
    · cases r.contains other <;> simp [accepted?, returned?, hid]
  | unregister other =>
    have hanswer : (r.call (.unregister other)).1 = .unregistered (r.get? other) := rfl
    rw [hanswer]
    by_cases hid : other = id
    · simp [accepted?, returned?, hid]
    · simp [accepted?, returned?, hid]

theorem accepted_eq_returned (r : Registry α) (calls : List (Call α)) (id : ClientId) :
    (r.get? id).toList ++ (calls.zip (r.answers calls)).filterMap (accepted? id) =
      (calls.zip (r.answers calls)).filterMap (returned? id) ++
        ((r.after calls).get? id).toList := by
  induction calls generalizing r with
  | nil => simp [answers, after]
  | cons c calls ih =>
    have hafter : r.after (c :: calls) = (r.call c).2.after calls := rfl
    simp only [List.filterMap_eq_flatMap_toList] at ih ⊢
    rw [answers, List.zip_cons_cons, List.flatMap_cons, List.flatMap_cons, ← List.append_assoc,
      toList_get?_call, List.append_assoc, ih, List.append_assoc, hafter]

/-- How handles are selected for some targets: by the ids of those that are registered, each
once, in the order in which they first occur. -/
structure Picks (r : Registry α) (targets picked : List ClientId) : Prop where
  mem_iff : ∀ id, id ∈ picked ↔ id ∈ targets ∧ r.contains id = true
  ordered : picked.Pairwise fun i j => targets.idxOf i < targets.idxOf j
  handles_eq : (r.select targets).map some = picked.map r.get?

theorem pairwise_idxOf_cons {first : ClientId} {targets picked : List ClientId}
    (hfirst : first ∉ picked) (h : picked.Pairwise fun i j => targets.idxOf i < targets.idxOf j) :
    picked.Pairwise fun i j => (first :: targets).idxOf i < (first :: targets).idxOf j := by
  refine h.imp_of_mem fun hi hj hlt => ?_
  rw [List.idxOf_cons_ne _ (ne_of_mem_of_not_mem hi hfirst).symm,
    List.idxOf_cons_ne _ (ne_of_mem_of_not_mem hj hfirst).symm]
  exact Nat.succ_lt_succ hlt

theorem exists_pickedFrom (r : Registry α) (seen targets : List ClientId) :
    ∃ picked : List ClientId,
      (∀ id, id ∈ picked ↔ id ∈ targets ∧ r.contains id = true ∧ id ∉ seen) ∧
      (picked.Pairwise fun i j => targets.idxOf i < targets.idxOf j) ∧
      (r.selectFrom seen targets).map some = picked.map r.get? := by
  -- By induction on the targets: a target that is picked stands before those that are picked
  -- behind it, and one that was seen is not picked again.
  induction targets generalizing seen with
  | nil => exact ⟨[], by simp, .nil, rfl⟩
  | cons first targets ih =>
    rw [selectFrom]
    split
    · next hseen =>
      rw [List.contains_iff_mem] at hseen
      obtain ⟨picked, hmem, hpairs, hhandles⟩ := ih seen
      have hfirst : first ∉ picked := fun h => ((hmem first).mp h).2.2 hseen
      refine ⟨picked, fun id => ?_, pairwise_idxOf_cons hfirst hpairs, hhandles⟩
      rw [hmem, List.mem_cons]
      have hother (h : id ∉ seen) : id ≠ first := fun heq => h (heq ▸ hseen)
      tauto
    · next hseen =>
      rw [List.contains_iff_mem] at hseen
      obtain ⟨picked, hmem, hpairs, hhandles⟩ := ih (first :: seen)
      have hfirst : first ∉ picked := fun h => ((hmem first).mp h).2.2 List.mem_cons_self
      have hordered := pairwise_idxOf_cons hfirst hpairs
      cases hget : r.get? first with
      | none =>
        have habsent := contains_eq_false_iff.mpr hget
        refine ⟨picked, fun id => ?_, hordered, by simpa using hhandles⟩
        rw [hmem, List.mem_cons, List.mem_cons, not_or]
        have hother (h : r.contains id = true) : id ≠ first := fun heq => by
          simp [heq, habsent] at h
        tauto
      | some a =>
        have hpresent := contains_iff_exists.mpr ⟨a, hget⟩
        refine ⟨first :: picked, fun id => ?_, List.pairwise_cons.mpr ⟨fun i hi => ?_, hordered⟩,
          by simp [hget, hhandles]⟩
        · rw [List.mem_cons, hmem, List.mem_cons, List.mem_cons, not_or]
          by_cases heq : id = first
          · simp [heq, hpresent, hseen]
          · tauto
        · rw [List.idxOf_cons_self, List.idxOf_cons_ne _ (ne_of_mem_of_not_mem hi hfirst).symm]
          exact Nat.succ_pos _

theorem exists_picked (r : Registry α) (targets : List ClientId) :
    ∃ picked, r.Picks targets picked := by
  obtain ⟨picked, hmem, hpairs, hhandles⟩ := r.exists_pickedFrom [] targets
  exact ⟨picked, by simpa using hmem, hpairs, hhandles⟩

theorem Picks.nodup {targets picked : List ClientId} (h : r.Picks targets picked) :
    picked.Nodup :=
  h.ordered.imp fun {i j} hlt (heq : i = j) => Nat.lt_irrefl _ (heq ▸ hlt)

def reached (r : Registry α) (targets : List ClientId) : Finset ClientId :=
  targets.toFinset ∩ r.toFinmap.keys

theorem length_select (r : Registry α) (targets : List ClientId) :
    (r.select targets).length = (r.reached targets).card := by
  obtain ⟨picked, h⟩ := r.exists_picked targets
  have hreached : r.reached targets = picked.toFinset := by
    ext id
    rw [reached, Finset.mem_inter, List.mem_toFinset, List.mem_toFinset, Finmap.mem_keys,
      mem_toFinmap_iff, h.mem_iff]
  have hlength := congrArg List.length h.handles_eq
  rw [List.length_map, List.length_map] at hlength
  rw [hlength, hreached, List.toFinset_card_of_nodup h.nodup]

theorem length_select_le (r : Registry α) (targets : List ClientId) :
    (r.select targets).length ≤ r.entries.length := by
  rw [length_select, ← size, r.shows_toFinmap.size_eq]
  exact Finset.card_le_card Finset.inter_subset_right

end Registry

end CipherLink
