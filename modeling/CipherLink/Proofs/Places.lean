import Mathlib.Data.List.Basic

/-!
# Places in lists

A place in a list is a way of writing it as what stands before an entry, the entry, and what
stands after it. Histories are grown at their end, so what matters is where a place can be in a
list that has grown.
-/

namespace CipherLink

section

variable {α : Type} {a b : α} {before after : List α}

theorem split_append {front back : List α} (h : front ++ back = before ++ a :: after) :
    (∃ rest, front = before ++ a :: rest ∧ after = rest ++ back) ∨
      ∃ rest, before = front ++ rest ∧ back = rest ++ a :: after := by
  obtain ⟨rest, rfl, hback⟩ | ⟨rest, rfl, hback⟩ := List.append_eq_append_iff.mp h
  · exact .inr ⟨rest, rfl, hback⟩
  · cases rest with
    | nil => exact .inr ⟨[], by rw [List.append_nil, List.append_nil], hback.symm⟩
    | cons first rest =>
      obtain ⟨rfl, rfl⟩ := List.cons.inj hback
      exact .inl ⟨rest, rfl, rfl⟩

theorem split_concat {front : List α} (h : front ++ [b] = before ++ a :: after) :
    (∃ rest, front = before ++ a :: rest) ∨ before = front ∧ a = b := by
  obtain ⟨rest, hfront, -⟩ | ⟨rest, rfl, hlast⟩ := split_append h
  · exact .inl ⟨rest, hfront⟩
  · obtain ⟨rfl, hlast⟩ | ⟨-, hnil⟩ := List.append_eq_singleton_iff.mp hlast.symm
    · exact .inr ⟨List.append_nil _, (List.cons.inj hlast).1.symm⟩
    · cases hnil

theorem getElem?_append_of_some {l : List α} {i : Nat} (h : l[i]? = some a) (back : List α) :
    (l ++ back)[i]? = some a := by
  rw [List.getElem?_append_left (List.getElem?_eq_some_iff.mp h).1, h]

theorem getElem?_set_of_some {l : List α} {i : Nat} (h : l[i]? = some a) (b : α) :
    (l.set i b)[i]? = some b :=
  List.getElem?_set_self (List.getElem?_eq_some_iff.mp h).1

theorem set_concat_length (front : List α) (a b : α) :
    (front ++ [a]).set front.length b = front ++ [b] := by
  rw [List.set_append_right _ _ (Nat.le_refl _), Nat.sub_self, List.set_cons_zero]

theorem getElem?_concat_eq_some {front : List α} {i : Nat} (h : (front ++ [b])[i]? = some a) :
    front[i]? = some a ∨ i = front.length ∧ a = b := by
  obtain hlt | hle := Nat.lt_or_ge i front.length
  · rw [List.getElem?_append_left hlt] at h
    exact .inl h
  · obtain rfl : i = front.length := by
      have hlength := (List.getElem?_eq_some_iff.mp h).1
      rw [List.length_append, List.length_singleton] at hlength
      omega
    rw [List.getElem?_concat_length] at h
    exact .inr ⟨rfl, (Option.some.inj h).symm⟩

theorem getElem?_set_eq_some {l : List α} {i j : Nat} (h : (l.set i b)[j]? = some a) :
    j = i ∧ a = b ∨ j ≠ i ∧ l[j]? = some a := by
  by_cases hplace : i = j
  · subst hplace
    have hlength := (List.getElem?_eq_some_iff.mp h).1
    rw [List.length_set] at hlength
    rw [List.getElem?_set_self hlength] at h
    exact .inl ⟨rfl, (Option.some.inj h).symm⟩
  · rw [List.getElem?_set_ne hplace] at h
    exact .inr ⟨Ne.symm hplace, h⟩

theorem forall_split_concat {front : List α} {P : List α → α → Prop} :
    (∀ before a after, front ++ [b] = before ++ a :: after → P before a) ↔
      (∀ before a after, front = before ++ a :: after → P before a) ∧ P front b := by
  constructor
  · intro h
    refine ⟨?_, h front b [] rfl⟩
    rintro before a after rfl
    exact h before a (after ++ [b]) (by simp)
  · rintro ⟨h, hlast⟩ before a after hsplit
    obtain ⟨rest, hfront⟩ | ⟨rfl, rfl⟩ := split_concat hsplit
    · exact h before a rest hfront
    · exact hlast

theorem exists_last_concat {front : List α} {p q : α → Prop} :
    (∃ before a after, front ++ [b] = before ++ a :: after ∧ p a ∧ ∀ x ∈ after, q x) ↔
      p b ∨ q b ∧ ∃ before a after, front = before ++ a :: after ∧ p a ∧ ∀ x ∈ after, q x := by
  constructor
  · rintro ⟨before, a, after, hsplit, ha, hafter⟩
    obtain ⟨rest, hfront, rfl⟩ | ⟨rest, rfl, hlast⟩ := split_append hsplit
    · refine .inr ⟨hafter b (by simp), before, a, rest, hfront, ha, ?_⟩
      exact fun x hx => hafter x (List.mem_append_left _ hx)
    · obtain ⟨-, hlast⟩ | ⟨-, hnil⟩ := List.append_eq_singleton_iff.mp hlast.symm
      · exact .inl ((List.cons.inj hlast).1 ▸ ha)
      · cases hnil
  · rintro (hb | ⟨hb, before, a, after, rfl, ha, hafter⟩)
    · exact ⟨front, b, [], rfl, hb, List.forall_mem_nil _⟩
    · refine ⟨before, a, after ++ [b], by simp, ha, ?_⟩
      intro x hx
      obtain hx | hx := List.mem_append.mp hx
      · exact hafter x hx
      · exact List.mem_singleton.mp hx ▸ hb

end

end CipherLink
