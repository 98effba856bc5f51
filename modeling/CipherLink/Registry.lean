import CipherLink.Message

/-!
# Client registries

A registry maps the ids of connected clients to the handles by which they are
reached. The first registration of an id stands until it is taken back. Calls may come
in any order. A registration tells whether the id was free, and a removal hands out what
was registered.
-/

namespace CipherLink

structure Registry (α : Type) where
  entries : List (ClientId × α)
  distinct : (entries.map Prod.fst).Nodup

namespace Registry

variable {α : Type}

def empty : Registry α := ⟨[], .nil⟩

def get? (r : Registry α) (id : ClientId) : Option α :=
  r.entries.lookup id

def contains (r : Registry α) (id : ClientId) : Bool :=
  r.entries.any fun entry => entry.1 == id

theorem contains_iff {r : Registry α} {id : ClientId} :
    r.contains id = true ↔ id ∈ r.entries.map Prod.fst := by
  simp [contains]

/-- The registry with a handle for an id, unless the id has one already. -/
def register (r : Registry α) (id : ClientId) (a : α) : Bool × Registry α :=
  if h : r.contains id = true then (false, r)
  else
    (true, ⟨r.entries ++ [(id, a)], by
      rw [List.map_append, List.nodup_append]
      refine ⟨r.distinct, by simp, ?_⟩
      intro x hx y hy
      rintro rfl
      simp only [List.map_cons, List.map_nil, List.mem_singleton] at hy
      exact h (contains_iff.mpr (hy ▸ hx))⟩)

def unregister (r : Registry α) (id : ClientId) : Option α × Registry α :=
  (r.get? id, ⟨r.entries.filter fun entry => entry.1 != id,
    r.distinct.sublist (List.Sublist.map _ List.filter_sublist)⟩)

def ids (r : Registry α) : List ClientId := r.entries.map Prod.fst

def handles (r : Registry α) : List α := r.entries.map Prod.snd

def selectFrom (r : Registry α) (seen : List ClientId) : List ClientId → List α
  | [] => []
  | id :: ids =>
    if seen.contains id then selectFrom r seen ids
    else (r.get? id).toList ++ selectFrom r (id :: seen) ids

/-- The handles of the targets that are registered, each once, in the order of
the targets. -/
def select (r : Registry α) (targets : List ClientId) : List α :=
  r.selectFrom [] targets

def size (r : Registry α) : Nat := r.entries.length

def isEmpty (r : Registry α) : Bool := r.entries.isEmpty

inductive Call (α : Type) where
  | register (id : ClientId) (handle : α)
  | unregister (id : ClientId)
deriving DecidableEq, Repr

inductive Answer (α : Type) where
  | registered (isNew : Bool)
  | unregistered (handle : Option α)
deriving DecidableEq, Repr

def call (r : Registry α) : Call α → Answer α × Registry α
  | .register id a =>
    let (isNew, r) := r.register id a
    (.registered isNew, r)
  | .unregister id =>
    let (handle, r) := r.unregister id
    (.unregistered handle, r)

def after (r : Registry α) (calls : List (Call α)) : Registry α :=
  calls.foldl (fun r c => (r.call c).2) r

def answers (r : Registry α) : List (Call α) → List (Answer α)
  | [] => []
  | c :: calls => (r.call c).1 :: (r.call c).2.answers calls

end Registry

end CipherLink
