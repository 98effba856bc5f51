import CipherLink.Proofs.Subscriptions.Runs

/-!
# Publications in the log

A publication notes its beginning, each of its calls and its end. Its handlers may publish
as well, so that the notes of several publications stand between each other, told apart by
the names of the publications. Picked out by its name, each of them has called the
handlers that it began with, in their order and once each, and has ended with the number
of those that were completed.
-/

namespace CipherLink.Subscriptions

variable {η μ : Type}

def Event.publication? : Event η → Option Nat
  | .subscribed .. | .unsubscribed .. | .counted .. => none
  | .began publication .. | .entered publication .. | .left publication _
  | .ended publication _ => some publication

def callNotes (publication : Nat) (message : Message) (delivery : Delivery) :
    List η → List Bool → List (Event η)
  | handler :: handlers, completed :: outcomes =>
    .entered publication handler message delivery :: .left publication completed ::
      callNotes publication message delivery handlers outcomes
  | _, _ => []

def notesOf (publication : Nat) (log : List (Event η)) : List (Event η) :=
  log.filter fun event => event.publication? == some publication

def Begun (publication : Nat) (log : List (Event η)) : Prop :=
  ∃ key handlers message delivery,
    log[publication]? = some (.began publication key handlers message delivery)

/-- Whether an event stands where it may: the beginning of a publication in front of
exactly the calls of its handlers and the end, with the number of those that were
completed; a call or an end behind the beginning of its publication. -/
def Placed (before : List (Event η)) (event : Event η) (after : List (Event η)) : Prop :=
  match event with
  | .subscribed .. | .unsubscribed .. | .counted .. => True
  | .began publication _ handlers message delivery =>
    publication = before.length ∧ ∃ outcomes : List Bool, outcomes.length = handlers.length ∧
      notesOf publication after = callNotes publication message delivery handlers outcomes ++
        [.ended publication (outcomes.count true)]
  | .entered publication .. | .left publication _ | .ended publication _ =>
    Begun publication before

theorem Begun.lt {publication : Nat} {log : List (Event η)} (h : Begun publication log) :
    publication < log.length := by
  obtain ⟨key, handlers, message, delivery, hbegan⟩ := h
  exact (List.getElem?_eq_some_iff.mp hbegan).1

theorem Begun.append {publication : Nat} {log : List (Event η)} (h : Begun publication log)
    (later : List (Event η)) : Begun publication (log ++ later) := by
  have hlt := h.lt
  obtain ⟨key, handlers, message, delivery, hbegan⟩ := h
  exact ⟨key, handlers, message, delivery, by rw [List.getElem?_append_left hlt, hbegan]⟩

theorem notesOf_append (publication : Nat) (log later : List (Event η)) :
    notesOf publication (log ++ later) = notesOf publication log ++ notesOf publication later :=
  List.filter_append _ _

theorem notesOf_eq_nil {publication : Nat} {log : List (Event η)}
    (h : ∀ event ∈ log, event.publication? ≠ some publication) : notesOf publication log = [] := by
  rw [notesOf, List.filter_eq_nil_iff]
  intro event hmem heq
  exact h event hmem (by simpa using heq)

theorem Placed.append {before after more : List (Event η)} {event : Event η}
    (h : Placed before event after)
    (hmore : ∀ later ∈ more, later.publication? ≠ some before.length) :
    Placed before event (after ++ more) := by
  cases event with
  | began publication key handlers message delivery =>
    obtain ⟨hname, outcomes, hlength, hnotes⟩ := h
    refine ⟨hname, outcomes, hlength, ?_⟩
    rw [notesOf_append, hnotes, notesOf_eq_nil (hname ▸ hmore), List.append_nil]
  | _ => exact h

/-- A piece of a log behind `old`. Its events belong to publications that begin in it, or
to the one that it is a part of, if there is one. -/
structure Piece (within : Option Nat) (old piece : List (Event η)) : Prop where
  fresh : ∀ event ∈ piece, ∀ publication, event.publication? = some publication →
    within = some publication ∨ old.length ≤ publication
  placed : ∀ before event after, piece = before ++ event :: after →
    Placed (old ++ before) event after

namespace Piece

variable {within : Option Nat} {old piece more : List (Event η)} {publication : Nat}

theorem nil (within : Option Nat) (old : List (Event η)) : Piece within old [] where
  fresh := nofun
  placed before event after h := by simp at h

theorem singleton {event : Event η} (hplaced : Placed old event [])
    (hfresh : event.publication? = none ∨ event.publication? = within) :
    Piece within old [event] where
  fresh found hmem publication hpublication := by
    rw [List.mem_singleton.mp hmem] at hpublication
    obtain hnone | hwithin := hfresh
    · rw [hnone] at hpublication
      cases hpublication
    · exact .inl (hwithin.symm.trans hpublication)
  placed before found after h := by
    obtain ⟨rfl, hrest⟩ | ⟨rest, -, hrest⟩ := List.cons_eq_append_iff.mp h
    · obtain ⟨rfl, rfl⟩ := List.cons.inj hrest
      rwa [List.append_nil]
    · simp at hrest

theorem append (hpiece : Piece within old piece) (hmore : Piece within (old ++ piece) more)
    (hwithin : ∀ publication, within = some publication → publication < old.length) :
    Piece within old (piece ++ more) where
  fresh event hmem publication hpublication := by
    obtain hfirst | hlater := List.mem_append.mp hmem
    · exact hpiece.fresh event hfirst publication hpublication
    · obtain hself | hle := hmore.fresh event hlater publication hpublication
      · exact .inl hself
      · rw [List.length_append] at hle
        exact .inr (Nat.le_of_add_right_le hle)
  placed before event after h := by
    -- An event of the first piece has all of the second one behind it, in which nothing
    -- belongs to a publication that began in the first.
    obtain ⟨rest, hfirst, rfl⟩ | ⟨rest, rfl, hlater⟩ := split_append h
    · refine (hpiece.placed before event rest hfirst).append ?_
      intro later hmem hpublication
      obtain hself | hle := hmore.fresh later hmem _ hpublication
      · have hlt := hwithin _ hself
        rw [List.length_append] at hlt
        omega
      · rw [hfirst, List.length_append, List.length_append, List.length_append,
          List.length_cons] at hle
        omega
    · rw [← List.append_assoc]
      exact hmore.placed rest event after hlater

theorem notesOf_eq_nil (hpiece : Piece none old piece) (hbegan : publication < old.length) :
    notesOf publication piece = [] := by
  refine Subscriptions.notesOf_eq_nil fun event hmem hpublication => ?_
  obtain hself | hle := hpiece.fresh event hmem publication hpublication
  · cases hself
  · exact Nat.not_le_of_lt hbegan hle

theorem whole {key : MessageKey} {handlers : List η} {message : Message}
    {delivery : Delivery} {outcomes : List Bool}
    (hpiece : Piece (some old.length)
      (old ++ [.began old.length key handlers message delivery]) piece)
    (hlength : outcomes.length = handlers.length)
    (hnotes : notesOf old.length piece = callNotes old.length message delivery handlers outcomes ++
      [.ended old.length (outcomes.count true)]) :
    Piece none old (.began old.length key handlers message delivery :: piece) where
  fresh event hmem publication hpublication := by
    right
    obtain rfl | hlater := List.mem_cons.mp hmem
    · exact Nat.le_of_eq (Option.some.inj hpublication)
    · obtain hself | hle := hpiece.fresh event hlater publication hpublication
      · exact Nat.le_of_eq (Option.some.inj hself)
      · rw [List.length_append] at hle
        exact Nat.le_of_add_right_le hle
  placed before event after h := by
    obtain ⟨rfl, hrest⟩ | ⟨rest, rfl, hrest⟩ := List.cons_eq_append_iff.mp h
    · obtain ⟨rfl, rfl⟩ := List.cons.inj hrest
      exact ⟨by rw [List.append_nil], outcomes, hlength, hnotes⟩
    · rw [List.append_cons]
      exact hpiece.placed rest event after hrest

end Piece

def Grows (u v : World η μ) : Prop :=
  ∃ piece, v.log = u.log ++ piece ∧ Piece none u.log piece

namespace Grows

theorem refl (w : World η μ) : Grows w w :=
  ⟨[], (List.append_nil _).symm, .nil _ _⟩

theorem trans {u v w : World η μ} (huv : Grows u v) (hvw : Grows v w) : Grows u w := by
  obtain ⟨piece, hv, hpiece⟩ := huv
  obtain ⟨more, hw, hmore⟩ := hvw
  rw [hv] at hmore
  exact ⟨piece ++ more, by rw [hw, hv, List.append_assoc], hpiece.append hmore nofun⟩

theorem note {u v : World η μ} {event : Event η} (hv : v.log = u.log ++ [event])
    (hplaced : Placed u.log event []) (hnone : event.publication? = none) : Grows u v :=
  ⟨[event], hv, .singleton hplaced (.inl hnone)⟩

end Grows

/-- Whether a log grows, as a part of a publication, by the given notes of it and by whole
publications between them. -/
def GrowsWithin (publication : Nat) (notes old new : List (Event η)) : Prop :=
  ∃ piece, new = old ++ piece ∧ Piece (some publication) old piece ∧
    notesOf publication piece = notes

namespace GrowsWithin

variable {publication : Nat} {notes more old middle new : List (Event η)}

theorem trans (hbegun : Begun publication old) (hfirst : GrowsWithin publication notes old middle)
    (hsecond : GrowsWithin publication more middle new) :
    GrowsWithin publication (notes ++ more) old new := by
  obtain ⟨piece, rfl, hpiece, hnotes⟩ := hfirst
  obtain ⟨rest, rfl, hrest, hmore⟩ := hsecond
  refine ⟨piece ++ rest, List.append_assoc _ _ _, hpiece.append hrest ?_, ?_⟩
  · rintro _ ⟨⟩
    exact hbegun.lt
  · rw [notesOf_append, hnotes, hmore]

theorem begun (hbegun : Begun publication old) (h : GrowsWithin publication notes old new) :
    Begun publication new := by
  obtain ⟨piece, rfl, -, -⟩ := h
  exact hbegun.append piece

theorem note {event : Event η} (hplaced : Placed old event [])
    (hof : event.publication? = some publication) :
    GrowsWithin publication [event] old (old ++ [event]) :=
  ⟨[event], rfl, .singleton hplaced (.inr hof), by simp [notesOf, hof]⟩

end GrowsWithin

section

variable {publication : Nat} {message : Message} {delivery : Delivery} {handlers : List η}
  {outcomes : List Bool} {u v : World η μ}

theorem Calls.length_eq {R : World η μ → World η μ → Prop}
    (h : Calls R publication message delivery handlers u outcomes v) :
    outcomes.length = handlers.length := by
  induction h with
  | nil w => rfl
  | cons _ _ ih => rw [List.length_cons, List.length_cons, ih]

end

end CipherLink.Subscriptions
