import CipherLink.Proofs.Requests.Moves
import CipherLink.Proofs.Subscriptions.Rosters

/-!
# Accounts of requests

All that a busy client knows of its requests and publications is told by its log: which handlers
are registered, which of them a publication has called, and which message has been the first to
reach the handler of a request.
-/

namespace CipherLink

open Subscriptions (Answered Entry Event Few issued roster)

/-- What the events before it say about a step of a publication: it is named as it begins, calls
handlers that it has begun with, and does not end before it has called all of them. -/
def Subscriptions.Grounded (before : List (Event ClientHandler)) : Event ClientHandler → Prop
  | .began publication .. => publication = before.length
  | .entered publication handler message delivery => ∃ key handlers,
    before[publication]? = some (.began publication key handlers message delivery) ∧
      handler ∈ handlers
  | .ended publication _ => ∃ key handlers message delivery,
    before[publication]? = some (.began publication key handlers message delivery) ∧
      ∀ handler ∈ handlers, .entered publication handler message delivery ∈ before
  | .subscribed .. | .unsubscribed .. | .counted .. | .left .. => True

def Publishing.Told (p : Publishing) (log : List (Event ClientHandler)) : Prop :=
  ∃ key called, log[p.name]? = some (.began p.name key (called ++ p.left) p.message p.delivery) ∧
    ∀ handler ∈ called, .entered p.name handler p.message p.delivery ∈ log

section

variable {p : Publishing} {log : List (Event ClientHandler)}

theorem Publishing.Told.append (h : p.Told log) (later : List (Event ClientHandler)) :
    p.Told (log ++ later) := by
  obtain ⟨key, called, hbegan, hcalled⟩ := h
  exact ⟨key, called, getElem?_append_of_some hbegan later,
    fun handler hmem => List.mem_append_left _ (hcalled handler hmem)⟩

theorem Publishing.Told.enter {name completed : Nat} {message : Message} {delivery : Delivery}
    {handler : ClientHandler} {left : List ClientHandler} {isCalling : Bool}
    (h : Told ⟨name, message, delivery, handler :: left, isCalling, completed⟩ log) :
    Subscriptions.Grounded log (.entered name handler message delivery) ∧
      Told ⟨name, message, delivery, left, true, completed⟩
        (log ++ [.entered name handler message delivery]) := by
  obtain ⟨key, called, hbegan, hcalled⟩ := h
  refine ⟨⟨key, _, hbegan, by simp⟩, key, called ++ [handler], ?_, ?_⟩
  · rw [getElem?_append_of_some hbegan]
    simp
  · intro other hmem
    obtain hmem | hmem := List.mem_append.mp hmem
    · exact List.mem_append_left _ (hcalled other hmem)
    · rw [List.mem_singleton.mp hmem]
      exact List.mem_append_right _ (List.mem_singleton_self _)

theorem Publishing.Told.finish {name completed : Nat} {message : Message} {delivery : Delivery}
    {isCalling : Bool} (h : Told ⟨name, message, delivery, [], isCalling, completed⟩ log)
    (n : Nat) : Subscriptions.Grounded log (.ended name n) := by
  obtain ⟨key, called, hbegan, hcalled⟩ := h
  refine ⟨key, _, message, delivery, hbegan, ?_⟩
  rwa [List.append_nil]

end

def Subscriptions.Event.response? (ticket : Nat) : Event ClientHandler → Option Message
  | .entered _ (.respond other) message _ => if other = ticket then some message else none
  | _ => none

theorem Subscriptions.Event.response?_eq_some {ticket : Nat} {event : Event ClientHandler}
    {message : Message} (h : event.response? ticket = some message) :
    ∃ publication delivery, event = .entered publication (.respond ticket) message delivery := by
  cases event with
  | entered publication handler found delivery =>
    cases handler with
    | note ordinal => cases h
    | respond other =>
      simp only [response?, Option.ite_none_right_eq_some, Option.some.injEq] at h
      obtain ⟨rfl, rfl⟩ := h
      exact ⟨publication, delivery, rfl⟩
  | _ => cases h

theorem Client.handle_eq (message : Message) (delivery : Delivery) (handler : ClientHandler)
    (c : Client) (name : Nat) : ∃ notes answers,
      (handle message delivery handler c).2 = { c with notes, answers } ∧
        ∀ i, answers.lookup i = (c.answers.lookup i).or
          ((Event.entered name handler message delivery).response? i) := by
  cases handler with
  | note ordinal => exact ⟨_, _, rfl, fun i => Option.or_none.symm⟩
  | respond ticket =>
    rw [handle]
    split
    · next hany =>
      refine ⟨_, _, rfl, fun i => ?_⟩
      simp only [Subscriptions.Event.response?]
      split
      · next hticket =>
        subst hticket
        cases hlookup : c.answers.lookup ticket with
        | none =>
          obtain ⟨answer, hmem, hsame⟩ := List.any_eq_true.mp hany
          have hother := List.lookup_eq_none_iff.mp hlookup answer hmem
          simp [beq_iff_eq.mp hsame] at hother
        | some found => rfl
      · exact Option.or_none.symm
    · refine ⟨_, _, rfl, fun i => ?_⟩
      rw [List.lookup_append]
      congr 1
      by_cases hticket : ticket = i
      · simp [hticket, Subscriptions.Event.response?]
      · have hother : (i == ticket) = false := beq_false_of_ne (Ne.symm hticket)
        simp [hticket, hother, Subscriptions.Event.response?, List.lookup_cons]

theorem Client.lookup_endRequest {c : Client} {r : Request} {ticket : Nat}
    (hother : ticket ≠ r.ticket) :
    (c.endRequest r).answers.lookup ticket = c.answers.lookup ticket := by
  rw [endRequest]
  dsimp only
  induction c.answers with
  | nil => rfl
  | cons answer answers ih =>
    obtain ⟨other, message⟩ := answer
    rw [List.filter_cons]
    by_cases hgone : other = r.ticket
    · simp [hgone, ih, List.lookup_cons, beq_false_of_ne hother]
    · simp [hgone, ih, List.lookup_cons]

def RequestCall.heard? (r : RequestCall) (log : List (Event ClientHandler)) : Option Message :=
  log.findSome? (Event.response? r.request.ticket)

def RequestCall.HeardFirst (r : RequestCall) (log : List (Event ClientHandler))
    (message : Message) : Prop :=
  ∃ before publication delivery after,
    log = before ++ .entered publication (.respond r.request.ticket) message delivery :: after ∧
      r.heard? before = none ∧ .unsubscribed r.request.subscription true ∉ before

def RequestStage.outcome? : RequestStage → Option (Except RequestError Message)
  | .leaving outcome => some outcome
  | .ended outcome => outcome
  | _ => none

structure RequestCall.Told (r : RequestCall) (place : Nat) (log : List (Event ClientHandler)) :
    Prop where
  ticket : r.request.ticket = place
  subscribed : .subscribed r.request.subscription r.responseKey (.respond place) ∈ log
  kept : r.stage.isUnderWay = true → .unsubscribed r.request.subscription true ∉ log
  gone : r.stage.isUnderWay = false → .unsubscribed r.request.subscription true ∈ log
  response : ∀ message, r.stage.outcome? = some (.ok message) → r.HeardFirst log message

def RequestCall.Holds (calls : List RequestCall) (place : Nat) (id : SubscriptionId)
    (key : MessageKey) : Prop :=
  ∃ r, calls[place]? = some r ∧ r.request.subscription = id ∧ r.responseKey = key

namespace RequestCall

variable {r next : RequestCall} {c : Client} {place : Nat} {log : List (Event ClientHandler)}
  {message : Message}

theorem HeardFirst.append (h : r.HeardFirst log message) (later : List (Event ClientHandler)) :
    r.HeardFirst (log ++ later) message := by
  obtain ⟨before, publication, delivery, after, rfl, hfirst, hkept⟩ := h
  exact ⟨before, publication, delivery, after ++ later, by simp, hfirst, hkept⟩

theorem heardFirst_of_heard (hheard : r.heard? log = some message)
    (hkept : .unsubscribed r.request.subscription true ∉ log) : r.HeardFirst log message := by
  obtain ⟨before, event, after, rfl, hevent, hbefore⟩ := List.findSome?_eq_some_iff.mp hheard
  obtain ⟨publication, delivery, rfl⟩ := Subscriptions.Event.response?_eq_some hevent
  refine ⟨before, publication, delivery, after, rfl, ?_, ?_⟩
  · exact List.findSome?_eq_none_iff.mpr hbefore
  · exact fun hmem => hkept (List.mem_append_left _ hmem)

theorem Holds.set {calls : List RequestCall} {i : Nat} {id : SubscriptionId} {key : MessageKey}
    (h : Holds calls place id key) (hcall : calls[i]? = some r)
    (hrequest : next.request = r.request) (hkey : next.responseKey = r.responseKey) :
    Holds (calls.set i next) place id key := by
  obtain ⟨other, hother, rfl, rfl⟩ := h
  by_cases hplace : i = place
  · subst hplace
    obtain rfl := Option.some.inj (hcall.symm.trans hother)
    exact ⟨next, getElem?_set_of_some hcall next, by rw [hrequest], hkey⟩
  · exact ⟨other, (List.getElem?_set_ne hplace).trans hother, rfl, rfl⟩

theorem Told.concat (h : r.Told place log) {event : Event ClientHandler}
    (hevent : event ≠ .unsubscribed r.request.subscription true) :
    r.Told place (log ++ [event]) where
  ticket := h.ticket
  subscribed := List.mem_append_left _ h.subscribed
  kept hstage hmem := by
    obtain hmem | hmem := List.mem_append.mp hmem
    · exact h.kept hstage hmem
    · exact hevent (List.mem_singleton.mp hmem).symm
  gone hstage := List.mem_append_left _ (h.gone hstage)
  response message houtcome := (h.response message houtcome).append _

theorem Told.attend (h : r.Told place log) (hattends : c.Attends r next)
    (hanswer : c.answer? r.request = r.heard? log) : next.Told place log := by
  have hkept := h.kept hattends.isUnderWay.1
  have hstays {stage : RequestStage} (hunder : stage.isUnderWay = true)
      (hresponse : ∀ message, stage.outcome? = some (.ok message) → r.HeardFirst log message) :
      Told { r with stage } place log :=
    ⟨h.ticket, h.subscribed, fun _ => hkept, fun hended => (nomatch hunder.symm.trans hended),
      hresponse⟩
  cases hattends with
  | asked => exact hstays rfl nofun
  | refused => exact hstays rfl nofun
  | sent => exact hstays rfl nofun
  | failed => exact hstays rfl nofun
  | answered stage answer =>
    refine hstays rfl ?_
    rintro message ⟨⟩
    exact heardFirst_of_heard (hanswer.symm.trans answer) hkept
  | unanswered => exact hstays rfl nofun
  | connected => exact hstays rfl nofun
  | disconnected => exact hstays rfl nofun
  | early => exact hstays rfl nofun
  | late => exact hstays rfl nofun
  | expires => exact ⟨h.ticket, h.subscribed, h.kept, h.gone, h.response⟩

theorem Told.retire (h : r.Told place log) {outcome : Option (Except RequestError Message)}
    (houtcome : ∀ result, outcome = some result → r.stage.outcome? = some result) :
    Told { r with stage := .ended outcome } place
      (log ++ [.unsubscribed r.request.subscription true]) where
  ticket := h.ticket
  subscribed := List.mem_append_left _ h.subscribed
  kept := nofun
  gone _ := List.mem_append_right _ (List.mem_singleton_self _)
  response message hresult := (h.response message (houtcome _ hresult)).append _

end RequestCall

end CipherLink
