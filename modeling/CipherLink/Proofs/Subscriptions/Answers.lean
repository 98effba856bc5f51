import CipherLink.Proofs.Subscriptions.Registry
import CipherLink.Proofs.Subscriptions.Runs

/-!
# Answers of the subscriptions

The roster of a log is the list of the entries that it leaves, in the order of their
registration. The registry refines the roster, and every answer in the log is the one that
the roster of the events before it gives, as long as there are too few operations for the
ids to start over.
-/

namespace CipherLink.Subscriptions

variable {η μ : Type}

namespace Event

def isOperation : Event η → Bool
  | .subscribed .. | .unsubscribed .. | .counted .. | .began .. => true
  | .entered .. | .left .. | .ended .. => false

def issued? : Event η → Option SubscriptionId
  | .subscribed id .. => some id
  | _ => none

def enroll (entries : List (Entry η)) : Event η → List (Entry η)
  | .subscribed id key handler => entries ++ [⟨id, key, handler⟩]
  | .unsubscribed id _ => entries.filter fun entry => entry.id != id
  | _ => entries

end Event

def roster (log : List (Event η)) : List (Entry η) :=
  log.foldl Event.enroll []

def issued (log : List (Event η)) : List SubscriptionId :=
  log.filterMap Event.issued?

/-- Whether an event is what the roster of the events before it asks for: an id is new; an
entry is found if and only if it was registered and has not been found before; handlers
are counted and reached by their keys. -/
def Answered (before : List (Event η)) : Event η → Prop
  | .subscribed id _ _ => id ∉ issued before
  | .unsubscribed id found => found = true ↔ id ∈ issued before ∧ .unsubscribed id true ∉ before
  | .counted key n => n = (listed (roster before) key).length
  | .began _ key handlers _ _ => handlers = (listed (roster before) key).map Entry.handler
  | .entered .. | .left .. | .ended .. => True

theorem roster_concat (log : List (Event η)) (event : Event η) :
    roster (log ++ [event]) = event.enroll (roster log) := by
  simp [roster]

theorem issued_append (log later : List (Event η)) :
    issued (log ++ later) = issued log ++ issued later :=
  List.filterMap_append

theorem length_issued_le (log : List (Event η)) :
    (issued log).length ≤ log.countP Event.isOperation := by
  induction log with
  | nil => exact Nat.le_refl 0
  | cons event log ih =>
    rw [issued, List.filterMap_cons, List.countP_cons]
    cases event with
    | subscribed id key handler => exact Nat.succ_le_succ ih
    | _ => exact Nat.le_add_right_of_le ih

theorem issued_of_unsubscribed {log : List (Event η)} {id : SubscriptionId}
    (hanswered : ∀ before event after, log = before ++ event :: after → Answered before event)
    (hfound : .unsubscribed id true ∈ log) : id ∈ issued log := by
  obtain ⟨before, after, rfl⟩ := List.append_of_mem hfound
  have hanswer : true = true ↔ id ∈ issued before ∧ .unsubscribed id true ∉ before :=
    hanswered before _ after rfl
  rw [issued_append]
  exact List.mem_append_left _ (hanswer.mp rfl).1

/-- So few operations that the next id has not been given out before. -/
def Few (log : List (Event η)) : Prop :=
  log.countP Event.isOperation < UInt64.size - 1

theorem Few.of_append {log later : List (Event η)} (h : Few (log ++ later)) : Few log := by
  rw [Few, List.countP_append] at h
  exact Nat.lt_of_le_of_lt (Nat.le_add_right _ _) h

structure Sound (s : Subscriptions η) (log : List (Event η)) : Prop where
  refines : Refines s (roster log)
  nextId : s.nextId.toNat = (issued log).length + 1
  issued_lt : ∀ id ∈ issued log, id.toNat < s.nextId.toNat
  enrolled : ∀ id, id ∈ (roster log).map Entry.id ↔
    id ∈ issued log ∧ .unsubscribed id true ∉ log
  answered : ∀ before event after, log = before ++ event :: after → Answered before event

namespace Sound

variable {s : Subscriptions η} {log : List (Event η)}

theorem empty : Sound (.empty : Subscriptions η) [] where
  refines := .empty
  nextId := rfl
  issued_lt := nofun
  enrolled := by simp [roster, issued]
  answered before event after h := by simp at h

theorem note (h : Sound s log) {event : Event η} (hevent : Answered log event)
    (hroster : event.enroll (roster log) = roster log) (hissued : event.issued? = none)
    (hfound : ∀ id, event ≠ .unsubscribed id true) : Sound s (log ++ [event]) := by
  have hids : issued (log ++ [event]) = issued log := by
    rw [issued_append]
    simp [issued, hissued]
  constructor
  · rw [roster_concat, hroster]
    exact h.refines
  · rw [hids]
    exact h.nextId
  · rw [hids]
    exact h.issued_lt
  · intro id
    have hother : .unsubscribed id true ≠ event := (hfound id).symm
    rw [roster_concat, hroster, h.enrolled, hids]
    simp [hother]
  · exact forall_split_concat.mpr ⟨h.answered, hevent⟩

theorem nextId_notMem (h : Sound s log) : s.nextId ∉ issued log :=
  fun hmem => Nat.lt_irrefl _ (h.issued_lt _ hmem)

theorem subscribe (h : Sound s log) (key : MessageKey) (handler : η)
    (hfew : Few (log ++ [.subscribed s.nextId key handler])) :
    Sound (s.subscribe key handler).2 (log ++ [.subscribed s.nextId key handler]) := by
  have hids : issued (log ++ [.subscribed s.nextId key handler]) = issued log ++ [s.nextId] :=
    issued_append log _
  have hnext : (s.subscribe key handler).2.nextId.toNat = s.nextId.toNat + 1 := by
    have hcount := length_issued_le (log ++ [.subscribed s.nextId key handler])
    rw [hids, List.length_append, List.length_singleton] at hcount
    have hbound : s.nextId.toNat + 1 < UInt64.size := by
      rw [Few] at hfew
      rw [h.nextId]
      omega
    exact (UInt64.toNat_add _ _).trans (Nat.mod_eq_of_lt hbound)
  constructor
  · rw [roster_concat]
    exact h.refines.subscribe key handler
  · rw [hnext, hids, h.nextId, List.length_append, List.length_singleton]
  · intro id hmem
    rw [hids, List.mem_append, List.mem_singleton] at hmem
    rw [hnext]
    obtain hbefore | rfl := hmem
    · exact Nat.lt_succ_of_lt (h.issued_lt id hbefore)
    · exact Nat.lt_succ_self _
  · intro id
    have hnew : id = s.nextId → .unsubscribed id true ∉ log := by
      rintro rfl hfound
      exact h.nextId_notMem (issued_of_unsubscribed h.answered hfound)
    rw [roster_concat, hids, Event.enroll, List.map_append, List.mem_append, h.enrolled]
    simp only [List.map_cons, List.map_nil, List.mem_singleton, List.mem_append, reduceCtorEq,
      or_false]
    constructor
    · rintro (⟨hmem, hkept⟩ | hid)
      · exact ⟨.inl hmem, hkept⟩
      · exact ⟨.inr hid, hnew hid⟩
    · rintro ⟨hmem | hid, hkept⟩
      · exact .inl ⟨hmem, hkept⟩
      · exact .inr hid
  · exact forall_split_concat.mpr ⟨h.answered, h.nextId_notMem⟩

theorem unsubscribe (h : Sound s log) (id : SubscriptionId) :
    Sound (s.unsubscribe id).2 (log ++ [.unsubscribed id (s.unsubscribe id).1]) := by
  generalize hfound : (s.unsubscribe id).1 = found
  have hfound : found = true ↔ id ∈ issued log ∧ .unsubscribed id true ∉ log := by
    rw [← hfound, h.refines.unsubscribe_fst, h.enrolled]
  have hids : issued (log ++ [.unsubscribed id found]) = issued log :=
    (issued_append log _).trans (List.append_nil _)
  constructor
  · rw [roster_concat]
    exact h.refines.unsubscribe id
  · rw [hids]
    exact h.nextId
  · rw [hids]
    exact h.issued_lt
  · intro other
    have hleft : other ∈ ((roster log).filter fun entry => entry.id != id).map Entry.id ↔
        other ∈ (roster log).map Entry.id ∧ other ≠ id := by
      simp only [List.mem_map, List.mem_filter, bne_iff_ne]
      constructor
      · rintro ⟨entry, ⟨hmem, hid⟩, rfl⟩
        exact ⟨⟨entry, hmem, rfl⟩, hid⟩
      · rintro ⟨⟨entry, hmem, rfl⟩, hid⟩
        exact ⟨entry, ⟨hmem, hid⟩, rfl⟩
    rw [roster_concat, Event.enroll, hleft, hids, h.enrolled, List.mem_append,
      List.mem_singleton, Event.unsubscribed.injEq]
    constructor
    · rintro ⟨⟨hmem, hkept⟩, hid⟩
      refine ⟨hmem, ?_⟩
      rintro (hbefore | ⟨heq, -⟩)
      · exact hkept hbefore
      · exact hid heq
    · rintro ⟨hmem, hkept⟩
      rw [not_or] at hkept
      refine ⟨⟨hmem, hkept.1⟩, ?_⟩
      rintro rfl
      exact hkept.2 ⟨rfl, (hfound.mpr ⟨hmem, hkept.1⟩).symm⟩
  · exact forall_split_concat.mpr ⟨h.answered, hfound⟩

end Sound

def Keeps (u v : World η μ) : Prop :=
  Few v.log → Few u.log ∧ (Sound u.subscriptions u.log → Sound v.subscriptions v.log)

namespace Keeps

theorem refl (w : World η μ) : Keeps w w :=
  fun hfew => ⟨hfew, id⟩

theorem trans {u v w : World η μ} (huv : Keeps u v) (hvw : Keeps v w) : Keeps u w := by
  intro hfew
  obtain ⟨hfew, hlast⟩ := hvw hfew
  obtain ⟨hfew, hfirst⟩ := huv hfew
  exact ⟨hfew, hlast ∘ hfirst⟩

theorem note (w : World η μ) {event : Event η}
    (hroster : event.enroll (roster w.log) = roster w.log) (hissued : event.issued? = none)
    (hfound : ∀ id, event ≠ .unsubscribed id true)
    (hevent : Sound w.subscriptions w.log → Answered w.log event) : Keeps w (w.note event) :=
  fun hfew => ⟨hfew.of_append, fun h => h.note (hevent h) hroster hissued hfound⟩

end Keeps

end CipherLink.Subscriptions
