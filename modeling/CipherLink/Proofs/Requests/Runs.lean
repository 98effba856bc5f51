import CipherLink.Proofs.Requests.Accounts

/-!
# Runs of busy clients

The log of a busy client tells all of it, over any run with fewer uses of the subscriptions than
there are ids.
-/

namespace CipherLink.BusyClient

open Subscriptions (Answered Entry Event Few Grounded issued roster)

variable {s t : BusyClient}

structure Sound (s : BusyClient) : Prop where
  registry : Subscriptions.Sound s.client.subscriptions s.log
  grounded : ∀ before event after, s.log = before ++ event :: after → Grounded before event
  publications : ∀ p ∈ s.publications, p.Told s.log
  noted : ∀ id ∈ s.client.noted, ∃ key ordinal, .subscribed id key (.note ordinal) ∈ s.log
  requests : s.client.requests = s.calls.length
  registered : ∀ id key ticket, .subscribed id key (.respond ticket) ∈ s.log →
    RequestCall.Holds s.calls ticket id key
  calls : ∀ i (r : RequestCall), s.calls[i]? = some r → r.Told i s.log
  answers : ∀ i, (∀ r, s.calls[i]? = some r → r.stage.isUnderWay = true) →
    s.client.answers.lookup i = s.log.findSome? (Event.response? i)

namespace Sound

theorem new (config : LinkConfig) (files : KeyFiles) : (new config files).Sound where
  registry := .empty
  grounded before event after h := by simp [BusyClient.new] at h
  publications := nofun
  noted := nofun
  requests := rfl
  registered := nofun
  calls i r h := by simp [BusyClient.new] at h
  answers i _ := rfl

theorem mem_noted {id : SubscriptionId} (h : s.Sound) (later : List (Event ClientHandler))
    (hmem : id ∈ s.client.noted) :
    ∃ key ordinal, .subscribed id key (.note ordinal) ∈ s.log ++ later := by
  obtain ⟨key, ordinal, hsubscribed⟩ := h.noted id hmem
  exact ⟨key, ordinal, List.mem_append_left _ hsubscribed⟩

theorem mem_registered (h : s.Sound) (event : Event ClientHandler)
    (hevent : ∀ id key ticket, event ≠ .subscribed id key (.respond ticket)) (id : SubscriptionId)
    (key : MessageKey) (ticket : Nat)
    (hmem : .subscribed id key (.respond ticket) ∈ s.log ++ [event]) :
    RequestCall.Holds s.calls ticket id key := by
  obtain hmem | hmem := List.mem_append.mp hmem
  · exact h.registered id key ticket hmem
  · exact absurd (List.mem_singleton.mp hmem).symm (hevent id key ticket)

theorem answers_concat {event : Event ClientHandler} (h : s.Sound)
    (hevent : ∀ i, event.response? i = none) {calls : List RequestCall} (i : Nat)
    (hcalls : (∀ r, calls[i]? = some r → r.stage.isUnderWay = true) →
      ∀ r, s.calls[i]? = some r → r.stage.isUnderWay = true)
    (hunder : ∀ r, calls[i]? = some r → r.stage.isUnderWay = true) :
    s.client.answers.lookup i = (s.log ++ [event]).findSome? (Event.response? i) := by
  rw [List.findSome?_append, ← h.answers i (hcalls hunder)]
  simp [hevent]

theorem hear (h : s.Sound) (event : Event ClientHandler) (notes : List Note)
    (answers : List (Nat × Message)) (hquiet : ∀ id, event.isAbout id = false)
    (hanswered : Answered s.log event) (hgrounded : Grounded s.log event)
    {publications : List Publishing}
    (htold : ∀ p ∈ publications, p.Told (s.log ++ [event]))
    (hanswers : ∀ i, answers.lookup i = (s.client.answers.lookup i).or (event.response? i)) :
    Sound { s with
      client := { s.client with notes, answers }, publications, log := s.log ++ [event] } where
  registry := h.registry.concat hquiet hanswered
  grounded := forall_split_concat.mpr ⟨h.grounded, hgrounded⟩
  publications := htold
  noted id hmem := h.mem_noted _ hmem
  requests := h.requests
  registered := by
    refine h.mem_registered event ?_
    rintro id key ticket rfl
    simp [Event.isAbout] at hquiet
  calls i r hcall := by
    refine (h.calls i r hcall).concat ?_
    rintro rfl
    simp [Event.isAbout] at hquiet
  answers i hunder := by
    rw [List.findSome?_append, ← h.answers i hunder]
    simp [hanswers]

theorem note (h : s.Sound) (event : Event ClientHandler)
    (hquiet : ∀ id, event.isAbout id = false) (hanswered : Answered s.log event)
    (hgrounded : Grounded s.log event) {publications : List Publishing}
    (htold : ∀ p ∈ publications, p.Told (s.log ++ [event]))
    (hresponse : ∀ i, event.response? i = none) :
    Sound { s with publications, log := s.log ++ [event] } :=
  h.hear event s.client.notes s.client.answers hquiet hanswered hgrounded htold
    fun i => by rw [hresponse, Option.or_none]

theorem begin (h : s.Sound) (key : MessageKey) (message : Message) (delivery : Delivery) :
    (s.begin key message delivery).Sound := by
  refine h.note (.began s.log.length key (s.client.subscriptions.snapshot key) message delivery)
    (fun _ => rfl) (h.registry.refines.snapshot key) rfl ?_ fun _ => rfl
  intro p hmem
  obtain hmem | hmem := List.mem_append.mp hmem
  · exact (h.publications p hmem).append _
  · rw [List.mem_singleton.mp hmem]
    exact ⟨key, [], List.getElem?_concat_length, nofun⟩

theorem told_set (h : s.Sound) {i : Nat} {p : Publishing} {event : Event ClientHandler}
    (hp : p.Told (s.log ++ [event])) :
    ∀ other ∈ s.publications.set i p, other.Told (s.log ++ [event]) := by
  intro other hmem
  obtain hmem | rfl := List.mem_or_eq_of_mem_set hmem
  · exact (h.publications other hmem).append _
  · exact hp

theorem enter (h : s.Sound) {i : Nat} (henter : s.enter i = some t) : t.Sound := by
  rw [BusyClient.enter] at henter
  split at henter
  · next name message delivery handler left completed hp =>
    cases henter
    obtain ⟨hgrounded, htold⟩ := (h.publications _ (List.mem_of_getElem? hp)).enter
    obtain ⟨notes, answers, hclient, hanswers⟩ :=
      Client.handle_eq message delivery handler s.client name
    rw [hclient]
    exact h.hear (.entered name handler message delivery) notes answers (fun _ => rfl) trivial
      hgrounded (h.told_set htold) hanswers
  · cases henter

theorem leave (h : s.Sound) {i : Nat} {completed : Bool} (hleave : s.leave i completed = some t) :
    t.Sound := by
  rw [BusyClient.leave] at hleave
  split at hleave
  · next name message delivery left n hp =>
    cases hleave
    have htold := h.publications _ (List.mem_of_getElem? hp)
    exact h.note (.left name completed) (fun _ => rfl) trivial trivial
      (h.told_set (htold.append _)) fun _ => rfl
  · cases hleave

theorem finish (h : s.Sound) {i : Nat} (hfinish : s.finish i = some t) : t.Sound := by
  rw [BusyClient.finish] at hfinish
  split at hfinish
  · next name message delivery completed hp =>
    cases hfinish
    have htold := h.publications _ (List.mem_of_getElem? hp)
    refine h.note (.ended name completed) (fun _ => rfl) trivial (htold.finish completed) ?_
      fun _ => rfl
    intro other hmem
    exact (h.publications other (List.mem_of_mem_eraseIdx hmem)).append _
  · cases hfinish

theorem subscribe (h : s.Sound) (key : MessageKey) (hfew : Few (s.subscribe key).log) :
    (s.subscribe key).Sound where
  registry := h.registry.subscribe key _ hfew
  grounded := forall_split_concat.mpr ⟨h.grounded, trivial⟩
  publications p hmem := (h.publications p hmem).append _
  noted id hmem := by
    obtain hmem | hmem := List.mem_append.mp hmem
    · exact h.mem_noted _ hmem
    · rw [List.mem_singleton.mp hmem]
      exact ⟨_, _, List.mem_append_right _ (List.mem_singleton_self _)⟩
  requests := h.requests
  registered := h.mem_registered _ fun _ _ _ => nofun
  calls i r hcall := (h.calls i r hcall).concat nofun
  answers i := h.answers_concat (fun _ => rfl) i id

theorem unsubscribe (h : s.Sound) (ordinal : Nat) : (s.unsubscribe ordinal).Sound := by
  rw [BusyClient.unsubscribe]
  split
  · exact h
  · next id hid =>
    rw [Client.unsubscribe, hid]
    obtain ⟨key, ordinal, hnoted⟩ := h.noted id (List.mem_of_getElem? hid)
    refine ⟨h.registry.unsubscribe id, forall_split_concat.mpr ⟨h.grounded, trivial⟩,
      fun p hmem => (h.publications p hmem).append _, fun id hmem => h.mem_noted _ hmem,
      h.requests, h.mem_registered _ fun _ _ _ => nofun, ?_,
      fun i => h.answers_concat (fun _ => rfl) i fun hunder => hunder⟩
    intro i r hcall
    have htold := h.calls i r hcall
    refine htold.concat fun hsame => ?_
    obtain ⟨rfl, -⟩ := Event.unsubscribed.inj hsame
    cases (h.registry.eq_of_subscribed htold.subscribed hnoted).2

theorem request (h : s.Sound) (handle : Handle) (message : Message) (responseKey : MessageKey)
    (limit : Duration) (hfew : Few (s.request handle message responseKey limit).log) :
    (s.request handle message responseKey limit).Sound where
  registry := h.registry.subscribe responseKey _ hfew
  grounded := forall_split_concat.mpr ⟨h.grounded, trivial⟩
  publications p hmem := (h.publications p hmem).append _
  noted id hmem := h.mem_noted _ hmem
  requests := by
    show s.client.requests + 1 = (s.calls ++ [_]).length
    rw [List.length_append, h.requests]
    rfl
  registered id key ticket hmem := by
    obtain hmem | hmem := List.mem_append.mp hmem
    · obtain ⟨r, hcall, hr⟩ := h.registered id key ticket hmem
      exact ⟨r, getElem?_append_of_some hcall _, hr⟩
    · obtain ⟨rfl, rfl, hticket⟩ := Event.subscribed.inj (List.mem_singleton.mp hmem)
      obtain rfl := ClientHandler.respond.inj hticket
      refine ⟨⟨handle, message, key, limit, _, .asking, false⟩, ?_, rfl, rfl⟩
      show (s.calls ++ [_])[s.client.requests]? = some _
      rw [h.requests]
      exact List.getElem?_concat_length
  calls i r hcall := by
    obtain hcall | ⟨hlast, rfl⟩ := getElem?_concat_eq_some hcall
    · exact (h.calls i r hcall).concat nofun
    · have hplace : s.client.requests = i := h.requests.trans hlast.symm
      refine ⟨hplace, ?_, fun _ hmem => ?_, nofun, nofun⟩
      · rw [← hplace]
        exact List.mem_append_right _ (List.mem_singleton_self _)
      · obtain hmem | hmem := List.mem_append.mp hmem
        · exact h.registry.nextId_notMem
            (Subscriptions.issued_of_unsubscribed h.registry.answered hmem)
        · cases List.mem_singleton.mp hmem
  answers i := by
    refine h.answers_concat (fun _ => rfl) i fun hunder r hcall => hunder r ?_
    exact getElem?_append_of_some hcall _

theorem attend (h : s.Sound) {i : Nat} {r next : RequestCall} (sessions : List Session)
    (hcall : s.calls[i]? = some r) (hattends : s.client.Attends r next) :
    Sound { s with client := { s.client with sessions }, calls := s.calls.set i next } where
  registry := h.registry
  grounded := h.grounded
  publications := h.publications
  noted := h.noted
  requests := h.requests.trans (List.length_set).symm
  registered id key ticket hmem := by
    obtain ⟨hrequest, hkey⟩ := hattends.keeps
    exact (h.registered id key ticket hmem).set hcall hrequest hkey
  calls j other hother := by
    obtain ⟨rfl, rfl⟩ | ⟨-, hother⟩ := getElem?_set_eq_some hother
    · have htold := h.calls j r hcall
      refine htold.attend hattends ?_
      rw [Client.answer?, RequestCall.heard?, htold.ticket]
      refine h.answers j fun other hother => ?_
      obtain rfl := Option.some.inj (hcall.symm.trans hother)
      exact hattends.isUnderWay.1
    · exact h.calls j other hother
  answers j hunder := by
    refine h.answers j fun other hother => ?_
    by_cases hplace : i = j
    · subst hplace
      obtain rfl := Option.some.inj (hcall.symm.trans hother)
      exact hattends.isUnderWay.1
    · exact hunder other ((List.getElem?_set_ne hplace).trans hother)

theorem mem_roster (h : s.Sound) {i : Nat} {r : RequestCall} (hcall : s.calls[i]? = some r)
    (hunder : r.stage.isUnderWay = true) :
    ⟨r.request.subscription, r.responseKey, .respond i⟩ ∈ roster s.log := by
  have htold := h.calls i r hcall
  exact (Subscriptions.mem_roster_iff h.registry.answered).mpr ⟨htold.subscribed, htold.kept hunder⟩

theorem retire (h : s.Sound) {i : Nat} {r : RequestCall} (hcall : s.calls[i]? = some r)
    {outcome : Option (Except RequestError Message)} (hunder : r.stage.isUnderWay = true)
    (houtcome : ∀ result, outcome = some result → r.stage.outcome? = some result) :
    (s.retire i r outcome).Sound := by
  have htold := h.calls i r hcall
  have hfound : (s.client.subscriptions.unsubscribe r.request.subscription).1 = true :=
    (h.registry.refines.unsubscribe_fst _).mpr (List.mem_map_of_mem (h.mem_roster hcall hunder))
  have hlength := (List.getElem?_eq_some_iff.mp hcall).1
  have hregistry := h.registry.unsubscribe r.request.subscription
  rw [BusyClient.retire, hfound]
  rw [hfound] at hregistry
  refine ⟨hregistry, forall_split_concat.mpr ⟨h.grounded, trivial⟩,
    fun p hmem => (h.publications p hmem).append _, fun id hmem => h.mem_noted _ hmem,
    h.requests.trans List.length_set.symm, ?_, ?_, ?_⟩
  · intro id key ticket hmem
    have hholds := h.mem_registered (.unsubscribed r.request.subscription true)
      (fun _ _ _ => nofun) id key ticket hmem
    exact hholds.set hcall rfl rfl
  · intro j other hother
    obtain ⟨rfl, rfl⟩ | ⟨hplace, hother⟩ := getElem?_set_eq_some hother
    · exact htold.retire houtcome
    · have hkept := h.calls j other hother
      refine hkept.concat fun hsame => ?_
      obtain ⟨hid, -⟩ := Event.unsubscribed.inj hsame
      obtain ⟨-, hhandler⟩ := h.registry.eq_of_subscribed htold.subscribed (hid ▸ hkept.subscribed)
      exact hplace (ClientHandler.respond.inj hhandler)
  · intro j hcalls
    by_cases hplace : j = i
    · subst hplace
      cases hcalls _ (List.getElem?_set_self hlength)
    · have hlookup : (s.client.endRequest r.request).answers.lookup j = s.client.answers.lookup j :=
        Client.lookup_endRequest (htold.ticket ▸ hplace)
      refine hlookup.trans (h.answers_concat (fun _ => rfl) j ?_ hcalls)
      intro hall other hother
      exact hall other ((List.getElem?_set_ne (Ne.symm hplace)).trans hother)

theorem move (h : s.Sound) {m : BusyMove} (hmove : s.move m = some t) (hfew : Few t.log) :
    t.Sound := by
  cases moved_of_move hmove with
  | rests sessions held => exact ⟨h.1, h.2, h.3, h.4, h.5, h.6, h.7, h.8⟩
  | requests handle message responseKey limit => exact h.request _ _ _ _ hfew
  | advances sessions call attends => exact h.attend sessions call attends
  | ends call stage =>
    refine h.retire call (by rw [stage]; rfl) ?_
    rintro result ⟨⟩
    rw [stage]
    rfl
  | drops call stage =>
    refine h.retire call ?_ nofun
    obtain stage | stage := stage <;> rw [stage] <;> rfl
  | subscribes key => exact h.subscribe key hfew
  | unsubscribes ordinal => exact h.unsubscribe ordinal
  | begins sessions key message delivery =>
    have hrests : Sound { s with client := { s.client with sessions } } :=
      ⟨h.1, h.2, h.3, h.4, h.5, h.6, h.7, h.8⟩
    exact hrests.begin key message delivery
  | enters henter => exact h.enter henter
  | leaves hleave => exact h.leave hleave
  | finishes hfinish => exact h.finish hfinish

end Sound

theorem log_of_move {m : BusyMove} (hmove : s.move m = some t) : s.log <+: t.log := by
  cases moved_of_move hmove with
  | rests | advances => exact List.prefix_rfl
  | requests | ends | drops | subscribes | begins => exact List.prefix_append _ _
  | unsubscribes ordinal =>
    rw [unsubscribe]
    split
    · exact List.prefix_rfl
    · exact List.prefix_append _ _
  | enters henter =>
    rw [enter] at henter
    split at henter <;> cases henter
    exact List.prefix_append _ _
  | leaves hleave =>
    rw [leave] at hleave
    split at hleave <;> cases hleave
    exact List.prefix_append _ _
  | finishes hfinish =>
    rw [finish] at hfinish
    split at hfinish <;> cases hfinish
    exact List.prefix_append _ _

theorem log_of_follow {moves : List BusyMove} (hrun : s.follow moves = some t) :
    s.log <+: t.log := by
  induction moves generalizing s with
  | nil => exact Option.some.inj hrun ▸ List.prefix_rfl
  | cons m moves ih =>
    obtain ⟨next, hmove, hrest⟩ := Option.bind_eq_some_iff.mp hrun
    exact (log_of_move hmove).trans (ih hrest)

theorem Sound.follow (h : s.Sound) {moves : List BusyMove} (hrun : s.follow moves = some t)
    (hfew : Few t.log) : t.Sound := by
  induction moves generalizing s with
  | nil => exact Option.some.inj hrun ▸ h
  | cons m moves ih =>
    obtain ⟨next, hmove, hrest⟩ := Option.bind_eq_some_iff.mp hrun
    obtain ⟨later, hlog⟩ := log_of_follow hrest
    exact ih (h.move hmove (hlog ▸ hfew).of_append) hrest

end CipherLink.BusyClient
