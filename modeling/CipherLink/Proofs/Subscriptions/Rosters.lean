import CipherLink.Proofs.Subscriptions.Answers
import Mathlib.Data.List.Induction

/-!
# Entries of a roster

An entry is on the roster from its registration until it is taken back. All that is noted about
one id can be left out of a log, and the roster of what remains is the roster without it.
-/

namespace CipherLink.Subscriptions

variable {η : Type} {log later : List (Event η)} {id : SubscriptionId} {key : MessageKey}
  {handler : η}

theorem issued_of_subscribed (hmem : .subscribed id key handler ∈ log) : id ∈ issued log :=
  List.mem_filterMap.mpr ⟨_, hmem, rfl⟩

theorem mem_roster_iff
    (hanswered : ∀ before event after, log = before ++ event :: after → Answered before event) :
    ⟨id, key, handler⟩ ∈ roster log ↔
      .subscribed id key handler ∈ log ∧ .unsubscribed id true ∉ log := by
  induction log using List.reverseRecOn with
  | nil => simp [roster]
  | append_singleton log event ih =>
    obtain ⟨hbefore, hevent⟩ := forall_split_concat.mp hanswered
    rw [roster_concat]
    cases event with
    | subscribed other key' handler' =>
      -- An id that is new has not been taken back.
      have hnew : other = id → .unsubscribed id true ∉ log := by
        rintro rfl hfound
        exact hevent (issued_of_unsubscribed hbefore hfound)
      simp only [Event.enroll, List.mem_append, List.mem_singleton, ih hbefore, Entry.mk.injEq,
        Event.subscribed.injEq, reduceCtorEq, or_false]
      constructor
      · rintro (⟨hmem, hkept⟩ | ⟨rfl, rfl, rfl⟩)
        · exact ⟨.inl hmem, hkept⟩
        · exact ⟨.inr ⟨rfl, rfl, rfl⟩, hnew rfl⟩
      · rintro ⟨hmem | hsame, hkept⟩
        · exact .inl ⟨hmem, hkept⟩
        · exact .inr hsame
    | unsubscribed other found =>
      simp only [Event.enroll, List.mem_filter, ih hbefore, bne_iff_ne, List.mem_append,
        List.mem_singleton, reduceCtorEq, or_false, Event.unsubscribed.injEq, not_or, ne_eq,
        and_assoc]
      refine and_congr_right fun hmem => and_congr_right fun hkept => ?_
      constructor
      · rintro hother ⟨rfl, -⟩
        exact hother rfl
      · rintro hother rfl
        exact hother ⟨rfl, (hevent.mpr ⟨issued_of_subscribed hmem, hkept⟩).symm⟩
    | _ => simp [Event.enroll, ih hbefore]

def Event.isAbout (id : SubscriptionId) : Event η → Bool
  | .subscribed other _ _ | .unsubscribed other _ => other == id
  | _ => false

theorem Sound.concat {s : Subscriptions η} {event : Event η} (h : Sound s log)
    (hquiet : ∀ id, event.isAbout id = false) (hanswered : Answered log event) :
    Sound s (log ++ [event]) := by
  have habout (id : SubscriptionId) : (id == id) = true := beq_self_eq_true id
  refine h.note hanswered ?_ ?_ ?_
  · cases event with
    | subscribed id key handler => cases (hquiet id).symm.trans (habout id)
    | unsubscribed id found => cases (hquiet id).symm.trans (habout id)
    | _ => rfl
  · cases event with
    | subscribed id key handler => cases (hquiet id).symm.trans (habout id)
    | _ => rfl
  · rintro id rfl
    cases (hquiet id).symm.trans (habout id)

theorem roster_filter_isAbout (id : SubscriptionId) (log : List (Event η)) :
    roster (log.filter fun event => !event.isAbout id) =
      (roster log).filter fun entry => entry.id != id := by
  induction log using List.reverseRecOn with
  | nil => rfl
  | append_singleton log event ih =>
    have hconcat : roster ((log ++ [event]).filter fun event => !event.isAbout id) =
        if event.isAbout id then (roster log).filter fun entry => entry.id != id
        else event.enroll ((roster log).filter fun entry => entry.id != id) := by
      rw [List.filter_append, ← ih]
      cases habout : event.isAbout id with
      | true => simp [habout]
      | false => simp [habout, roster_concat]
    rw [hconcat, roster_concat]
    cases event with
    | subscribed other key handler =>
      by_cases hid : other = id <;> simp [Event.isAbout, Event.enroll, hid]
    | unsubscribed other found =>
      by_cases hid : other = id
      · simp [Event.isAbout, Event.enroll, hid, List.filter_filter]
      · simp [Event.isAbout, Event.enroll, hid, List.filter_filter, Bool.and_comm]
    | _ => rfl

theorem roster_without (hgone : id ∉ (roster log).map Entry.id) :
    roster (log.filter fun event => !event.isAbout id) = roster log := by
  rw [roster_filter_isAbout, List.filter_eq_self]
  intro entry hmem
  rw [bne_iff_ne]
  rintro rfl
  exact hgone (List.mem_map_of_mem hmem)

theorem Sound.eq_of_subscribed {s : Subscriptions η} (h : Sound s log) {key' : MessageKey}
    {handler' : η} (hfirst : .subscribed id key handler ∈ log)
    (hsecond : .subscribed id key' handler' ∈ log) : key' = key ∧ handler' = handler := by
  obtain ⟨before, after, rfl⟩ := List.append_of_mem hfirst
  have hnew : id ∉ issued before := h.answered before _ after rfl
  obtain hmem | hmem := List.mem_append.mp hsecond
  · exact absurd (issued_of_subscribed hmem) hnew
  · obtain heq | hmem := List.mem_cons.mp hmem
    · obtain ⟨-, rfl, rfl⟩ := Event.subscribed.inj heq
      exact ⟨rfl, rfl⟩
    · obtain ⟨middle, last, rfl⟩ := List.append_of_mem hmem
      have hlater : id ∉ issued (before ++ .subscribed id key handler :: middle) :=
        h.answered _ (.subscribed id key' handler') last (by simp)
      exact absurd (issued_of_subscribed (List.mem_append_right _ List.mem_cons_self)) hlater

end CipherLink.Subscriptions
