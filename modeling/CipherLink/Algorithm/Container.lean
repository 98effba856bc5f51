import CipherLink.Algorithm.Descriptor

/-!
# Algorithm containers

The algorithms that one side supports, at most one for each identifier, in the
order of their identifiers. Adding an algorithm replaces the one with the same
identifier. An algorithm is removed by its identifier, whatever else is known of it, and
the call tells whether there was one.
-/

namespace CipherLink

def Algorithm.Precedes {α : Type} [Algorithm α] (a b : α) : Prop :=
  Algorithm.identifier a < Algorithm.identifier b

structure Container (α : Type) [Algorithm α] where
  algorithms : List α
  sorted : algorithms.Pairwise Algorithm.Precedes

namespace Container

variable {α : Type} [Algorithm α]

open Algorithm (identifier descriptor Precedes)

def empty : Container α := ⟨[], .nil⟩

def insertInto (a : α) : List α → List α
  | [] => [a]
  | b :: bs =>
    if identifier a < identifier b then a :: b :: bs
    else if identifier a = identifier b then a :: bs
    else b :: insertInto a bs

theorem mem_insertInto {a x : α} {bs : List α} (h : x ∈ insertInto a bs) : x = a ∨ x ∈ bs := by
  induction bs with
  | nil => simpa [insertInto] using h
  | cons b bs ih =>
    unfold insertInto at h
    split at h
    · simpa using h
    · split at h
      · rcases List.mem_cons.mp h with rfl | h
        · exact .inl rfl
        · exact .inr (List.mem_cons_of_mem _ h)
      · rcases List.mem_cons.mp h with rfl | h
        · exact .inr List.mem_cons_self
        · exact (ih h).imp_right (List.mem_cons_of_mem _)

theorem pairwise_insertInto (a : α) {bs : List α} (h : bs.Pairwise Precedes) :
    (insertInto a bs).Pairwise Precedes := by
  induction bs with
  | nil => simp [insertInto]
  | cons b bs ih =>
    obtain ⟨hb, hbs⟩ := List.pairwise_cons.mp h
    unfold insertInto
    split
    · next hLess =>
      refine List.pairwise_cons.mpr ⟨?_, h⟩
      intro x hx
      rcases List.mem_cons.mp hx with rfl | hx
      · exact hLess
      · exact String.lt_trans hLess (hb x hx)
    · next hNotLess =>
      split
      · next hEq =>
        refine List.pairwise_cons.mpr ⟨?_, hbs⟩
        intro x hx
        simpa only [Precedes, hEq] using hb x hx
      · next hNe =>
        refine List.pairwise_cons.mpr ⟨?_, ih hbs⟩
        intro x hx
        rcases mem_insertInto hx with rfl | hx
        · exact Std.lt_of_le_of_ne (Std.not_lt.mp hNotLess) (Ne.symm hNe)
        · exact hb x hx

/-- The container with one algorithm added, in place of the one with its
identifier. -/
def insert (c : Container α) (a : α) : Container α :=
  ⟨insertInto a c.algorithms, pairwise_insertInto a c.sorted⟩

/-- The container that holds the algorithms of a list; of those with the same
identifier, the last. -/
def ofList (as : List α) : Container α :=
  as.foldl insert empty

def erase (c : Container α) (id : String) : Container α :=
  ⟨c.algorithms.filter fun a => identifier a ≠ id, c.sorted.filter _⟩

def get? (c : Container α) (id : String) : Option α :=
  c.algorithms.find? fun a => identifier a = id

def size (c : Container α) : Nat := c.algorithms.length

def isEmpty (c : Container α) : Bool := c.algorithms.isEmpty

def supported (c : Container α) : List Descriptor :=
  c.algorithms.map descriptor

def selectStrongest (c : Container α) (theirs : List Descriptor) : Option α := do
  let chosen ← Descriptor.selectStrongest c.supported theirs
  c.get? chosen.identifier

inductive Change (α : Type) where
  | add (a : α)
  | remove (a : α)
deriving DecidableEq, Repr

def Change.identifier : Change α → String
  | .add a => Algorithm.identifier a
  | .remove a => Algorithm.identifier a

def remove (c : Container α) (a : α) : Bool × Container α :=
  ((c.get? (identifier a)).isSome, c.erase (identifier a))

def change (c : Container α) : Change α → Container α
  | .add a => c.insert a
  | .remove a => (c.remove a).2

def changeAll (c : Container α) (changes : List (Change α)) : Container α :=
  changes.foldl change c

end Container

end CipherLink
