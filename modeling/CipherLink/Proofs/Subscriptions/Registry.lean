import CipherLink.Proofs.Places
import CipherLink.Subscriptions

/-!
# Registries and rosters

A registry keeps its handlers in one list for each key and forgets keys without handlers.
It refines one list of all handlers, in the order of their registration: what it keeps
under a key is that part of the list, and each of its operations is the operation on the
list.
-/

namespace CipherLink

namespace Subscriptions

variable {η : Type} {s : Subscriptions η} {id : SubscriptionId} {key : MessageKey} {handler : η}

theorem under_cons (nextId : SubscriptionId) (topic : Topic η) (topics : List (Topic η))
    (key : MessageKey) : under ⟨nextId, topic :: topics⟩ key =
      if topic.key = key then topic.handlers else under ⟨nextId, topics⟩ key := by
  by_cases hkey : topic.key = key <;> simp [under, hkey]

theorem under_eq_nil {nextId : SubscriptionId} {topics : List (Topic η)}
    (hkey : key ∉ topics.map Topic.key) : under ⟨nextId, topics⟩ key = [] := by
  have hnone : topics.find? (fun topic => topic.key == key) = none := by
    rw [List.find?_eq_none]
    intro topic hmem heq
    exact hkey (List.mem_map.mpr ⟨topic, hmem, by simpa using heq⟩)
  rw [under, hnone]

theorem under_addTo (nextId : SubscriptionId) (key : MessageKey) (entry : SubscriptionId × η)
    (topics : List (Topic η)) (key' : MessageKey) :
    under ⟨nextId, addTo key entry topics⟩ key' =
      under ⟨nextId, topics⟩ key' ++ if key = key' then [entry] else [] := by
  induction topics with
  | nil => by_cases hkey : key = key' <;> simp [addTo, under, hkey]
  | cons topic topics ih =>
    rw [addTo]
    by_cases htopic : topic.key = key
    · subst htopic
      by_cases hkey : topic.key = key' <;> simp [under_cons, hkey]
    · rw [if_neg htopic, under_cons, under_cons, ih]
      by_cases hkey : topic.key = key'
      · have hother : key ≠ key' := fun heq => htopic (hkey.trans heq.symm)
        simp [hkey, hother]
      · simp [hkey]

theorem map_key_addTo (key : MessageKey) (entry : SubscriptionId × η) (topics : List (Topic η)) :
    (addTo key entry topics).map Topic.key =
      if key ∈ topics.map Topic.key then topics.map Topic.key
      else topics.map Topic.key ++ [key] := by
  induction topics with
  | nil => rfl
  | cons topic topics ih =>
    rw [addTo]
    by_cases htopic : topic.key = key
    · simp [htopic]
    · have hother : ¬ key = topic.key := fun heq => htopic heq.symm
      rw [if_neg htopic, List.map_cons, ih]
      simp only [List.map_cons, List.mem_cons, hother, false_or, List.cons_append]
      split <;> rfl

def without (id : SubscriptionId) (topics : List (Topic η)) : List (Topic η) :=
  (topics.map fun topic =>
    { topic with handlers := topic.handlers.filter fun entry => entry.1 != id }).filter
      fun topic => !topic.handlers.isEmpty

theorem map_key_without (id : SubscriptionId) (topics : List (Topic η)) :
    ((without id topics).map Topic.key).Sublist (topics.map Topic.key) := by
  have hmap := (List.filter_sublist (p := fun topic : Topic η => !topic.handlers.isEmpty)
    (l := topics.map fun topic =>
      { topic with handlers := topic.handlers.filter fun entry => entry.1 != id })).map Topic.key
  rwa [List.map_map] at hmap

theorem under_without {topics : List (Topic η)} (hkeys : (topics.map Topic.key).Nodup)
    (nextId : SubscriptionId) (id : SubscriptionId) (key : MessageKey) :
    under ⟨nextId, without id topics⟩ key =
      (under ⟨nextId, topics⟩ key).filter fun entry => entry.1 != id := by
  induction topics with
  | nil => rfl
  | cons topic topics ih =>
    rw [List.map_cons, List.nodup_cons] at hkeys
    have hkept := ih hkeys.2
    by_cases hempty : topic.handlers.filter (fun entry => entry.1 != id) = []
    · have hwithout : without id (topic :: topics) = without id topics := by
        simp [without, hempty]
      rw [hwithout, hkept, under_cons]
      by_cases hkey : topic.key = key
      · subst hkey
        rw [if_pos rfl, hempty, under_eq_nil hkeys.1, List.filter_nil]
      · rw [if_neg hkey]
    · have hwithout : without id (topic :: topics) =
          { topic with handlers := topic.handlers.filter fun entry => entry.1 != id } ::
            without id topics := by
        simp [without, hempty]
      rw [hwithout, under_cons, under_cons, hkept]
      split <;> rfl

theorem under_of_mem {topics : List (Topic η)} (hkeys : (topics.map Topic.key).Nodup)
    (nextId : SubscriptionId) {topic : Topic η} (hmem : topic ∈ topics) :
    under ⟨nextId, topics⟩ topic.key = topic.handlers := by
  induction topics with
  | nil => cases hmem
  | cons first topics ih =>
    rw [List.map_cons, List.nodup_cons] at hkeys
    rw [under_cons]
    obtain rfl | hrest := List.mem_cons.mp hmem
    · rw [if_pos rfl]
    · rw [if_neg, ih hkeys.2 hrest]
      intro heq
      exact hkeys.1 (heq ▸ List.mem_map_of_mem hrest)

theorem exists_topic_of_under {entry : SubscriptionId × η} (hmem : entry ∈ s.under key) :
    ∃ topic ∈ s.topics, entry ∈ topic.handlers := by
  rw [under] at hmem
  split at hmem
  · next topic htopic => exact ⟨topic, List.mem_of_find?_eq_some htopic, hmem⟩
  · cases hmem

section

variable {σ : Type} (run : η → σ → Bool × σ)

theorem runAll_cons (handler : η) (handlers : List η) (state : σ) :
    runAll run (handler :: handlers) state =
      let (ok, next) := run handler state
      let (completed, last) := runAll run handlers next
      (completed + if ok then 1 else 0, last) := by
  have hshift (handlers : List η) (n : Nat) (state : σ) :
      handlers.foldl (fun (found : Nat × σ) handler =>
        let (ok, next) := run handler found.2
        (if ok then found.1 + 1 else found.1, next)) (n, state) =
      ((runAll run handlers state).1 + n, (runAll run handlers state).2) := by
    induction handlers generalizing n state with
    | nil => simp [runAll]
    | cons handler handlers ih =>
      rw [runAll, List.foldl_cons, List.foldl_cons]
      dsimp only
      rw [ih, ih]
      cases (run handler state).1 <;> simp [Nat.add_assoc, Nat.add_comm]
  rw [runAll, List.foldl_cons]
  exact (hshift handlers _ _).trans (by simp)

theorem runAll_snd (handlers : List η) (state : σ) : (runAll run handlers state).2 =
    handlers.foldl (fun state handler => (run handler state).2) state := by
  induction handlers generalizing state with
  | nil => rfl
  | cons handler handlers ih =>
    rw [runAll_cons, List.foldl_cons]
    exact ih _

end

structure Entry (η : Type) where
  id : SubscriptionId
  key : MessageKey
  handler : η
deriving DecidableEq, Repr

def listed (entries : List (Entry η)) (key : MessageKey) : List (Entry η) :=
  entries.filter fun entry => entry.key == key

/-- Whether a registry keeps the entries of a list, in their order. -/
structure Refines (s : Subscriptions η) (entries : List (Entry η)) : Prop where
  keys : (s.topics.map Topic.key).Nodup
  under : ∀ key, s.under key = (listed entries key).map fun entry => (entry.id, entry.handler)

namespace Refines

variable {entries : List (Entry η)}

theorem empty : Refines (.empty : Subscriptions η) [] :=
  ⟨List.nodup_nil, fun _ => rfl⟩

theorem subscribe (h : Refines s entries) (key : MessageKey) (handler : η) :
    Refines (s.subscribe key handler).2 (entries ++ [⟨s.nextId, key, handler⟩]) where
  keys := by
    show ((addTo key (s.nextId, handler) s.topics).map Topic.key).Nodup
    rw [map_key_addTo]
    split
    · exact h.keys
    · next hkey =>
      refine List.nodup_append.mpr ⟨h.keys, List.pairwise_singleton _ _, ?_⟩
      rintro a hmem b hb rfl
      exact hkey (List.mem_singleton.mp hb ▸ hmem)
  under key' := by
    have hunder := under_addTo (s.nextId + 1) key (s.nextId, handler) s.topics key'
    refine hunder.trans ?_
    rw [show Subscriptions.under ⟨s.nextId + 1, s.topics⟩ key' = s.under key' from rfl, h.under]
    by_cases hkey : key = key' <;> simp [listed, hkey]

theorem unsubscribe (h : Refines s entries) (id : SubscriptionId) :
    Refines (s.unsubscribe id).2 (entries.filter fun entry => entry.id != id) where
  keys := h.keys.sublist (map_key_without id s.topics)
  under key := by
    refine (under_without h.keys s.nextId id key).trans ?_
    rw [show Subscriptions.under ⟨s.nextId, s.topics⟩ key = s.under key from rfl, h.under,
      List.filter_map, listed, listed, List.filter_filter, List.filter_filter]
    congr 2
    funext entry
    exact Bool.and_comm _ _

theorem unsubscribe_fst (h : Refines s entries) (id : SubscriptionId) :
    (s.unsubscribe id).1 = true ↔ id ∈ entries.map Entry.id := by
  have hfound : (s.unsubscribe id).1 = true ↔
      ∃ topic ∈ s.topics, ∃ entry ∈ topic.handlers, entry.1 = id := by
    simp [Subscriptions.unsubscribe]
  rw [hfound, List.mem_map]
  constructor
  · rintro ⟨topic, htopic, entry, hentry, rfl⟩
    rw [← under_of_mem h.keys s.nextId htopic] at hentry
    rw [show Subscriptions.under ⟨s.nextId, s.topics⟩ topic.key = s.under topic.key from rfl,
      h.under, List.mem_map] at hentry
    obtain ⟨listed, hlisted, rfl⟩ := hentry
    exact ⟨listed, (List.mem_filter.mp hlisted).1, rfl⟩
  · rintro ⟨entry, hmem, rfl⟩
    have hunder : (entry.id, entry.handler) ∈ s.under entry.key := by
      rw [h.under]
      exact List.mem_map_of_mem (List.mem_filter.mpr ⟨hmem, beq_self_eq_true _⟩)
    obtain ⟨topic, htopic, hkept⟩ := exists_topic_of_under hunder
    exact ⟨topic, htopic, _, hkept, rfl⟩

theorem count (h : Refines s entries) (key : MessageKey) :
    s.count key = (listed entries key).length := by
  rw [Subscriptions.count, h.under, List.length_map]

theorem snapshot (h : Refines s entries) (key : MessageKey) :
    s.snapshot key = (listed entries key).map Entry.handler := by
  rw [Subscriptions.snapshot, h.under, List.map_map]
  rfl

end Refines

end Subscriptions

end CipherLink
