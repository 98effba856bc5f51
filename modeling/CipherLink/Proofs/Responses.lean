import CipherLink.Proofs.Requests.Runs
import CipherLink.Proofs.Sessions

/-!
# Responses

The first message that reaches the handler of a request answers it. Publications take no turns, so
this need not be the one that began first: another one of the same key may still be under way. A
request that looks for its answer finds it if it is there, whether its session has closed or its
time is over, and takes back its handler whatever becomes of it.
-/

namespace CipherLink

open Subscriptions (Entry Event Few listed roster)

/-- Whether a message answers a request, as a log tells: it was published under the key of the
request behind the registration, it was the first to reach the handler, and all that were
published there before it were still under way when it did. -/
def RequestCall.AnsweredBy (r : RequestCall) (log : List (Event ClientHandler))
    (message : Message) : Prop :=
  let registration : Event ClientHandler :=
    .subscribed r.request.subscription r.responseKey (.respond r.request.ticket)
  ∃ front publication handlers delivery middle after,
    log = front ++ .began publication r.responseKey handlers message delivery :: middle ++
      .entered publication (.respond r.request.ticket) message delivery :: after ∧
    registration ∈ front ∧
    r.heard? (front ++ .began publication r.responseKey handlers message delivery :: middle) =
      none ∧
    ∀ earlier other handlers' message' delivery' later,
      front = earlier ++ .began other r.responseKey handlers' message' delivery' :: later →
      registration ∈ earlier → ∀ completed, .ended other completed ∉
        front ++ .began publication r.responseKey handlers message delivery :: middle

namespace BusyClient

variable {s t : BusyClient} {i : Nat} {r : RequestCall}

theorem Sound.registered_of_began (h : s.Sound) (hcall : s.calls[i]? = some r)
    {front after : List (Event ClientHandler)} {publication : Nat} {key : MessageKey}
    {handlers : List ClientHandler} {message : Message} {delivery : Delivery}
    (hlog : s.log = front ++ .began publication key handlers message delivery :: after)
    (hmem : .respond i ∈ handlers) :
    key = r.responseKey ∧
      .subscribed r.request.subscription r.responseKey (.respond i) ∈ front := by
  have hanswered (before : List (Event ClientHandler)) (event : Event ClientHandler)
      (rest : List (Event ClientHandler)) (hfront : front = before ++ event :: rest) :
      Subscriptions.Answered before event :=
    h.registry.answered before event (rest ++ .began publication key handlers message delivery ::
      after) (by rw [hlog, hfront]; simp)
  have hhandlers : handlers = (listed (roster front) key).map Entry.handler :=
    h.registry.answered front _ after hlog
  rw [hhandlers] at hmem
  obtain ⟨⟨id, key', handler⟩, hentry, rfl⟩ := List.mem_map.mp hmem
  obtain ⟨hroster, hkey⟩ := List.mem_filter.mp hentry
  obtain rfl : key' = key := beq_iff_eq.mp hkey
  have hsubscribed := ((Subscriptions.mem_roster_iff hanswered).mp hroster).1
  obtain ⟨other, hother, rfl, rfl⟩ :=
    h.registered id key' i (hlog ▸ List.mem_append_left _ hsubscribed)
  obtain rfl := Option.some.inj (hcall.symm.trans hother)
  exact ⟨rfl, hsubscribed⟩

theorem Sound.entered_of_ended (h : s.Sound)
    {before after earlier later : List (Event ClientHandler)} {id : SubscriptionId}
    {key : MessageKey} {other completed : Nat} {handlers : List ClientHandler} {message : Message}
    {delivery : Delivery}
    (hlog : s.log = before ++ after) (hkept : .unsubscribed id true ∉ before)
    (hbefore : before = earlier ++ .began other key handlers message delivery :: later)
    (hsubscribed : .subscribed id key (.respond i) ∈ earlier)
    (hended : .ended other completed ∈ before) :
    ∃ message delivery, .entered other (.respond i) message delivery ∈ before := by
  have hbegan : s.log = earlier ++ .began other key handlers message delivery ::
      (later ++ after) := by rw [hlog, hbefore]; simp
  have hanswered (front : List (Event ClientHandler)) (event : Event ClientHandler)
      (rest : List (Event ClientHandler)) (hfront : earlier = front ++ event :: rest) :
      Subscriptions.Answered front event :=
    h.registry.answered front event (rest ++ .began other key handlers message delivery ::
      (later ++ after)) (by rw [hbegan, hfront]; simp)
  have hroster : ⟨id, key, .respond i⟩ ∈ roster earlier := by
    refine (Subscriptions.mem_roster_iff hanswered).mpr ⟨hsubscribed, fun hfound => hkept ?_⟩
    exact hbefore ▸ List.mem_append_left _ hfound
  have hhandlers : handlers = (listed (roster earlier) key).map Entry.handler :=
    h.registry.answered earlier _ _ hbegan
  have hmem : .respond i ∈ handlers := by
    rw [hhandlers]
    exact List.mem_map_of_mem (List.mem_filter.mpr ⟨hroster, beq_self_eq_true key⟩)
  have hname : other = earlier.length := h.grounded earlier _ _ hbegan
  obtain ⟨front, rest, hsplit⟩ := List.append_of_mem hended
  obtain ⟨key', handlers', message', delivery', hfront, hcalled⟩ :=
    h.grounded front (.ended other completed) (rest ++ after) (by rw [hlog, hsplit]; simp)
  -- The publication that has ended is the one that began there.
  have hplace : s.log[other]? = some (.began other key' handlers' message' delivery') := by
    rw [hlog, hsplit, List.append_assoc]
    exact getElem?_append_of_some hfront _
  rw [hbegan, hname, List.getElem?_append_right (Nat.le_refl _), Nat.sub_self,
    List.getElem?_cons_zero, Option.some.injEq, Event.began.injEq] at hplace
  obtain ⟨-, -, rfl, rfl, rfl⟩ := hplace
  exact ⟨message, delivery, hsplit ▸ List.mem_append_left _ (hcalled _ hmem)⟩

theorem Sound.answeredBy (h : s.Sound) (hcall : s.calls[i]? = some r) {message : Message}
    (hfirst : r.HeardFirst s.log message) : r.AnsweredBy s.log message := by
  have hticket := (h.calls i r hcall).ticket
  obtain ⟨before, publication, delivery, after, hlog, hnone, hkept⟩ := hfirst
  obtain ⟨key, handlers, hbegan, hmem⟩ := h.grounded before _ after hlog
  obtain ⟨front, middle, hbefore⟩ := List.append_of_mem (List.mem_of_getElem? hbegan)
  subst hbefore
  have hsplit : s.log = front ++ .began publication key handlers message delivery ::
      (middle ++ .entered publication (.respond r.request.ticket) message delivery :: after) := by
    rw [hlog, List.append_assoc, List.cons_append]
  obtain ⟨rfl, hsubscribed⟩ := h.registered_of_began hcall hsplit (hticket ▸ hmem)
  refine ⟨front, publication, handlers, delivery, middle, after, hlog, hticket ▸ hsubscribed,
    hnone, ?_⟩
  rintro earlier other handlers' message' delivery' later rfl hregistered completed hended
  obtain ⟨found, foundDelivery, hentered⟩ :=
    h.entered_of_ended hlog hkept (List.append_assoc _ _ _) hregistered hended
  have hresponse := List.findSome?_eq_none_iff.mp hnone _ hentered
  simp [Event.response?] at hresponse

inductive Passes (s t : BusyClient) (i : Nat) (r : RequestCall) : RequestCall → Prop
  | stays (answers : ∀ message, s.client.answers.lookup i = some message →
      t.client.answers.lookup i = some message) : Passes s t i r r
  | attends {next : RequestCall} (attends : s.client.Attends r next)
      (answers : t.client.answers = s.client.answers) : Passes s t i r next
  | ends {outcome : Except RequestError Message} (stage : r.stage = .leaving outcome) :
      Passes s t i r { r with stage := .ended (some outcome) }
  | drops (stage : r.stage = .sending ∨ r.stage = .waiting) :
      Passes s t i r { r with stage := .ended none }

theorem Sound.passes_retire (h : s.Sound) (hcall : s.calls[i]? = some r) {j : Nat}
    {other : RequestCall} {outcome : Option (Except RequestError Message)}
    (hother : s.calls[j]? = some other)
    (hself : (s.Passes (s.retire j other outcome) j other { other with stage := .ended outcome })) :
    ∃ next, (s.retire j other outcome).calls[i]? = some next ∧
      s.Passes (s.retire j other outcome) i r next := by
  by_cases hplace : j = i
  · subst hplace
    obtain rfl := Option.some.inj (hother.symm.trans hcall)
    exact ⟨_, getElem?_set_of_some hcall _, hself⟩
  · refine ⟨r, (List.getElem?_set_ne hplace).trans hcall, .stays fun message hanswer => ?_⟩
    refine (Client.lookup_endRequest ?_).trans hanswer
    rw [(h.calls j other hother).ticket]
    exact Ne.symm hplace

theorem Sound.passes (h : s.Sound) (hcall : s.calls[i]? = some r) {m : BusyMove}
    (hmove : s.move m = some t) :
    ∃ next, t.calls[i]? = some next ∧ s.Passes t i r next := by
  cases moved_of_move hmove with
  | rests | subscribes | begins => exact ⟨r, hcall, .stays fun _ hanswer => hanswer⟩
  | requests =>
    refine ⟨r, ?_, .stays fun _ hanswer => hanswer⟩
    exact getElem?_append_of_some hcall _
  | @advances j other next sessions hother hattends =>
    by_cases hplace : j = i
    · subst hplace
      obtain rfl := Option.some.inj (hother.symm.trans hcall)
      exact ⟨next, getElem?_set_of_some hcall next, .attends hattends rfl⟩
    · exact ⟨r, (List.getElem?_set_ne hplace).trans hcall, .stays fun _ hanswer => hanswer⟩
  | ends hother hstage => exact h.passes_retire hcall hother (.ends hstage)
  | drops hother hstage => exact h.passes_retire hcall hother (.drops hstage)
  | unsubscribes ordinal =>
    rw [BusyClient.unsubscribe]
    split
    · exact ⟨r, hcall, .stays fun _ hanswer => hanswer⟩
    · next id hid =>
      rw [Client.unsubscribe, hid]
      exact ⟨r, hcall, .stays fun _ hanswer => hanswer⟩
  | enters henter =>
    rw [BusyClient.enter] at henter
    split at henter
    · next name message delivery handler left completed _ =>
      cases henter
      obtain ⟨notes, answers, hclient, hanswers⟩ :=
        Client.handle_eq message delivery handler s.client name
      refine ⟨r, hcall, .stays fun found hanswer => ?_⟩
      rw [hclient]
      refine (hanswers i).trans ?_
      rw [hanswer, Option.some_or]
    · cases henter
  | leaves hleave =>
    rw [BusyClient.leave] at hleave
    split at hleave <;> cases hleave
    exact ⟨r, hcall, .stays fun _ hanswer => hanswer⟩
  | finishes hfinish =>
    rw [BusyClient.finish] at hfinish
    split at hfinish <;> cases hfinish
    exact ⟨r, hcall, .stays fun _ hanswer => hanswer⟩

/-- What a request can come to whose answer is there: the answer, or why it could not be sent. -/
def Fits (message : Message) (outcome : Except RequestError Message) : Prop :=
  outcome = .ok message ∨ ∃ cause, outcome = .error (.send cause)

/-- Whether a request is bound to come to its answer, unless it cannot be sent or is dropped. -/
inductive Bound (s : BusyClient) (i : Nat) (message : Message) (r : RequestCall) : Prop
  | rests (stage : r.stage.isAtRest = true) (answer : s.client.answers.lookup i = some message)
  | leaves {outcome : Except RequestError Message} (stage : r.stage = .leaving outcome)
      (fits : Fits message outcome)
  | ended {outcome : Option (Except RequestError Message)} (stage : r.stage = .ended outcome)
      (fits : ∀ result, outcome = some result → Fits message result)

theorem bound_of_attends {message : Message} {next : RequestCall}
    (hattends : s.client.Attends r next) (hticket : r.request.ticket = i)
    (hstage : r.stage.isAtRest = true) (hbefore : s.client.answers.lookup i = some message)
    (hafter : t.client.answers.lookup i = some message) : t.Bound i message next := by
  cases hattends with
  | asked => exact .rests rfl hafter
  | refused => exact .leaves rfl (.inr ⟨_, rfl⟩)
  | sent => exact .rests rfl hafter
  | failed stage cause => exact .leaves rfl (.inr ⟨cause, rfl⟩)
  | answered stage answer =>
    rw [Client.answer?, hticket, hbefore] at answer
    exact .leaves rfl (.inl (congrArg Except.ok (Option.some.inj answer).symm))
  | unanswered stage answer =>
    rw [Client.answer?, hticket, hbefore] at answer
    cases answer
  | connected stage | disconnected stage | early stage | late stage =>
    rw [stage] at hstage
    cases hstage
  | expires => exact .rests hstage hafter

theorem follow_look {message : Message} (hcall : s.calls[i]? = some r)
    (hstage : r.stage = .waiting) (hanswer : s.client.answer? r.request = some message) :
    ∃ t, s.follow [.call i .looks, .ends i] = some t ∧
      t.calls[i]? = some { r with stage := .ended (some (.ok message)) } := by
  let found : RequestCall := { r with stage := .leaving (.ok message) }
  have hlength := (List.getElem?_eq_some_iff.mp hcall).1
  have hplace : (s.calls.set i found)[i]? = some found := List.getElem?_set_self hlength
  have hlook : s.move (.call i .looks) = some { s with calls := s.calls.set i found } := by
    simp only [move, hcall, Client.attend, hstage, hanswer, Option.bind_eq_bind, Option.bind_some]
    rfl
  have hend : move { s with calls := s.calls.set i found } (.ends i) =
      some (retire { s with calls := s.calls.set i found } i found (some (.ok message))) := by
    simp only [move, hplace, Option.bind_eq_bind, Option.bind_some]
    rfl
  refine ⟨_, by rw [follow, hlook, Option.bind_some, follow, hend]; rfl, ?_⟩
  exact List.getElem?_set_self (by rw [List.length_set]; exact hlength)

theorem Sound.bound_move (h : s.Sound) (hcall : s.calls[i]? = some r) {message : Message}
    (hbound : s.Bound i message r) {m : BusyMove} (hmove : s.move m = some t) :
    ∃ next, t.calls[i]? = some next ∧ t.Bound i message next := by
  obtain ⟨next, hnext, hpasses⟩ := h.passes hcall hmove
  refine ⟨next, hnext, ?_⟩
  cases hpasses with
  | stays hanswers =>
    cases hbound with
    | rests stage answer => exact .rests stage (hanswers message answer)
    | leaves stage fits => exact .leaves stage fits
    | ended stage fits => exact .ended stage fits
  | attends hattends hanswers =>
    cases hbound with
    | rests stage answer =>
      exact bound_of_attends hattends (h.calls i r hcall).ticket stage answer (hanswers ▸ answer)
    | leaves stage => exact absurd stage (hattends.ne_leaving _)
    | ended stage =>
      have hunder := hattends.isUnderWay.1
      rw [stage] at hunder
      cases hunder
  | ends stage =>
    cases hbound with
    | rests hstage =>
      rw [stage] at hstage
      cases hstage
    | leaves hstage fits =>
      obtain rfl := RequestStage.leaving.inj (stage.symm.trans hstage)
      refine .ended rfl ?_
      rintro result ⟨⟩
      exact fits
    | ended hstage => cases stage.symm.trans hstage
  | drops => exact .ended rfl nofun

theorem Sound.bound_follow (h : s.Sound) (hcall : s.calls[i]? = some r) {message : Message}
    (hbound : s.Bound i message r) {later : List BusyMove} (hrun : s.follow later = some t)
    (hfew : Few t.log) : ∃ last, t.calls[i]? = some last ∧ t.Bound i message last := by
  induction later generalizing s r with
  | nil =>
    obtain rfl := Option.some.inj hrun
    exact ⟨r, hcall, hbound⟩
  | cons m later ih =>
    obtain ⟨next, hmove, hrest⟩ := Option.bind_eq_some_iff.mp hrun
    obtain ⟨call, hnext, hstays⟩ := h.bound_move hcall hbound hmove
    obtain ⟨more, hlog⟩ := log_of_follow hrest
    exact ih (h.move hmove (hlog ▸ hfew).of_append) hnext hstays hrest

/-- Behind its end a request has left nothing in the registry, which keeps all others in the order
of their registration. -/
theorem Sound.under_of_ended (h : s.Sound) (hcall : s.calls[i]? = some r)
    (hended : r.stage.isUnderWay = false) (key : MessageKey) :
    .respond i ∉ s.client.subscriptions.snapshot key ∧ s.client.subscriptions.under key =
      (listed (roster (s.log.filter fun event => !event.isAbout r.request.subscription)) key).map
        fun entry => (entry.id, entry.handler) := by
  have htold := h.calls i r hcall
  have hgone : r.request.subscription ∉ (roster s.log).map Entry.id :=
    fun hmem => ((h.registry.enrolled _).mp hmem).2 (htold.gone hended)
  refine ⟨?_, ?_⟩
  · rw [h.registry.refines.snapshot]
    intro hmem
    obtain ⟨⟨id, key', handler⟩, hentry, rfl⟩ := List.mem_map.mp hmem
    have hroster := (List.mem_filter.mp hentry).1
    obtain ⟨hsubscribed, -⟩ := (Subscriptions.mem_roster_iff h.registry.answered).mp hroster
    obtain ⟨other, hother, rfl, -⟩ := h.registered id key' i hsubscribed
    obtain rfl := Option.some.inj (hcall.symm.trans hother)
    exact hgone (List.mem_map_of_mem hroster)
  · rw [Subscriptions.roster_without hgone, h.registry.refines.under]

end BusyClient

/-- At any point of a run with fewer uses of the subscriptions than there are ids: the handler of
a request that is under way is registered, and so before its message is written. A message that
has answered a request was the first to reach its handler. A request whose handler a message has
reached while it was not in the midst of a look comes to this message at its next look, and to
nothing else whatever happens in the meantime, unless it cannot be sent or is dropped. However a
request has ended, its handler is gone, and the registry is as if it had never been there. -/
theorem first_to_reach_answers {config : LinkConfig} {files : KeyFiles} {moves : List BusyMove}
    {s : BusyClient} (hrun : (BusyClient.new config files).follow moves = some s)
    (hfew : Few s.log) {i : Nat} {r : RequestCall} (hcall : s.calls[i]? = some r) :
    (r.stage.isUnderWay = true →
      ⟨r.request.subscription, r.responseKey, .respond r.request.ticket⟩ ∈ roster s.log) ∧
    (∀ message, r.stage = .ended (some (.ok message)) → r.AnsweredBy s.log message) ∧
    (∀ message, r.heard? s.log = some message → r.stage.isAtRest = true →
      (r.stage = .waiting → ∃ t, s.follow [.call i .looks, .ends i] = some t ∧
        t.calls[i]? = some { r with stage := .ended (some (.ok message)) }) ∧
      ∀ later t last outcome, s.follow later = some t → Few t.log → t.calls[i]? = some last →
        last.stage = .ended (some outcome) →
          outcome = .ok message ∨ ∃ cause, outcome = .error (.send cause)) ∧
    ∀ outcome, r.stage = .ended outcome → ∀ key,
      .respond r.request.ticket ∉ s.client.subscriptions.snapshot key ∧
      s.client.subscriptions.under key =
        (listed (roster (s.log.filter fun event => !event.isAbout r.request.subscription)) key).map
          fun entry => (entry.id, entry.handler) := by
  have hsound := (BusyClient.Sound.new config files).follow hrun hfew
  have htold := hsound.calls i r hcall
  refine ⟨?_, ?_, ?_, ?_⟩
  · intro hunder
    rw [htold.ticket]
    exact hsound.mem_roster hcall hunder
  · intro message hstage
    exact hsound.answeredBy hcall (htold.response message (by rw [hstage]; rfl))
  · intro message hheard hrest
    have hanswer : s.client.answers.lookup i = some message := by
      rw [← hheard, RequestCall.heard?, htold.ticket]
      refine hsound.answers i fun other hother => ?_
      obtain rfl := Option.some.inj (hcall.symm.trans hother)
      cases hstage : r.stage with
      | ended outcome =>
        rw [hstage] at hrest
        cases hrest
      | _ => rfl
    refine ⟨?_, ?_⟩
    · intro hstage
      rw [← htold.ticket] at hanswer
      exact BusyClient.follow_look hcall hstage hanswer
    · intro later t last outcome hlater hfewer hlast hended
      obtain ⟨found, hfound, hbound⟩ :=
        hsound.bound_follow hcall (.rests hrest hanswer) hlater hfewer
      obtain rfl := Option.some.inj (hlast.symm.trans hfound)
      cases hbound with
      | rests hstage =>
        rw [hended] at hstage
        cases hstage
      | leaves hstage => cases hended.symm.trans hstage
      | ended hstage fits =>
        obtain rfl := RequestStage.ended.inj (hended.symm.trans hstage)
        exact fits outcome rfl
  · intro outcome hstage key
    rw [htold.ticket]
    exact hsound.under_of_ended hcall (by rw [hstage]; rfl) key

deriving instance DecidableEq for RequestStage

/-- A client that waits for messages with key 5 sends a request for which such a message is the
response, over a session without encryption. -/
def asked : List BusyMove :=
  [.connected (.start (.ofNat 1) (plainChannel 128)), .subscribe 5,
    .request 0 ⟨3, none, []⟩ 5 ⟨1000⟩, .call 0 .asks, .call 0 (.writes fun _ => 4)]

/-- The session of the request closes behind the publication of its response, before it looks. -/
theorem first_to_reach_answers_closing :
    let message : Message := ⟨5, none, [1]⟩
    let delivery : Delivery := ⟨.ofNat 1, 48⟩
    ∃ s r, (BusyClient.new .unencrypted .empty).follow (asked ++
        [.publish 5 message delivery, .enter 0, .leave 0 true, .enter 0, .close 0, .call 0 .expires,
          .call 0 .looks, .ends 0]) = some s ∧ Few s.log ∧ s.calls[0]? = some r ∧
      r.stage = .ended (some (.ok message)) ∧ r.AnsweredBy s.log message ∧
      .respond r.request.ticket ∉ s.client.subscriptions.snapshot 5 ∧
      s.client.subscriptions.under 5 = [(1, .note 0)] := by
  intro message delivery
  have hrun : ((BusyClient.new .unencrypted .empty).follow (asked ++
      [.publish 5 message delivery, .enter 0, .leave 0 true, .enter 0, .close 0, .call 0 .expires,
        .call 0 .looks, .ends 0])).map (fun s => (s.calls.map RequestCall.stage,
          s.log.countP Event.isOperation, s.client.subscriptions.under 5)) =
        some ([.ended (some (.ok message))], 4, [(1, .note 0)]) := by
    decide +kernel
  obtain ⟨s, hrun, hstate⟩ := Option.map_eq_some_iff.mp hrun
  obtain ⟨hstages, hstate⟩ := Prod.mk.inj hstate
  obtain ⟨hcount, hunder⟩ := Prod.mk.inj hstate
  obtain ⟨r, hcalls, hstage⟩ := List.map_eq_singleton_iff.mp hstages
  have hfew : Few s.log := by
    rw [Few, hcount]
    decide
  have hcall : s.calls[0]? = some r := by rw [hcalls]; rfl
  obtain ⟨-, hanswered, -, hgone⟩ := first_to_reach_answers hrun hfew hcall
  exact ⟨s, r, hrun, hfew, hcall, hstage, hanswered message hstage, (hgone _ hstage 5).1, hunder⟩

/-- A handler that hears a message and publishes another one makes this one the answer, although
the first was published before it and behind the registration. A message that is published in the
midst of a look, when the session has yet to be looked at, is no answer if the session closes. -/
theorem response_overtaken_or_missed :
    let first : Message := ⟨5, none, [1]⟩
    let second : Message := ⟨5, none, [2]⟩
    let delivery : Delivery := ⟨.ofNat 1, 48⟩
    (∃ s r after, (BusyClient.new .unencrypted .empty).follow (asked ++
        [.publish 5 first delivery, .enter 0, .unsubscribe 0, .publish 5 second delivery, .enter 1,
          .leave 1 true, .finish 1, .leave 0 true, .enter 0, .leave 0 true, .finish 0,
          .call 0 .looks, .ends 0]) = some s ∧ s.calls[0]? = some r ∧
      r.stage = .ended (some (.ok second)) ∧
      s.log = [.subscribed 1 5 (.note 0), .subscribed 2 5 (.respond 0),
        .began 2 5 [.note 0, .respond 0] first delivery] ++ after) ∧
    ∃ s t r last, (BusyClient.new .unencrypted .empty).follow (asked ++
        [.call 0 .looks, .publish 5 first delivery, .enter 0, .leave 0 true, .enter 0,
          .leave 0 true, .finish 0]) = some s ∧ s.calls[0]? = some r ∧
      r.heard? s.log = some first ∧ s.client.isConnectedOn 0 = true ∧ r.timeIsOver = false ∧
      s.follow [.close 0, .call 0 .checks, .ends 0] = some t ∧ t.calls[0]? = some last ∧
      last.stage = .ended (some (.error .disconnected)) := by
  intro first second delivery
  refine ⟨?_, ?_⟩
  · have hrun : ((BusyClient.new .unencrypted .empty).follow (asked ++
        [.publish 5 first delivery, .enter 0, .unsubscribe 0, .publish 5 second delivery, .enter 1,
          .leave 1 true, .finish 1, .leave 0 true, .enter 0, .leave 0 true, .finish 0,
          .call 0 .looks, .ends 0])).map (fun s => (s.calls.map RequestCall.stage, s.log.take 3)) =
          some ([.ended (some (.ok second))], [.subscribed 1 5 (.note 0),
            .subscribed 2 5 (.respond 0), .began 2 5 [.note 0, .respond 0] first delivery]) := by
      decide +kernel
    obtain ⟨s, hrun, hstate⟩ := Option.map_eq_some_iff.mp hrun
    obtain ⟨hstages, hlog⟩ := Prod.mk.inj hstate
    obtain ⟨r, hcalls, hstage⟩ := List.map_eq_singleton_iff.mp hstages
    refine ⟨s, r, s.log.drop 3, hrun, by rw [hcalls]; rfl, hstage, ?_⟩
    rw [← hlog, List.take_append_drop]
  · have hrun : ((BusyClient.new .unencrypted .empty).follow (asked ++
        [.call 0 .looks, .publish 5 first delivery, .enter 0, .leave 0 true, .enter 0,
          .leave 0 true, .finish 0])).bind (fun s =>
            (s.follow [.close 0, .call 0 .checks, .ends 0]).map fun t =>
              (s.calls.map fun r => (r.heard? s.log, r.timeIsOver), s.client.isConnectedOn 0,
                t.calls.map RequestCall.stage)) =
          some ([(some first, false)], true, [.ended (some (.error .disconnected))]) := by
      decide +kernel
    obtain ⟨s, hrun, hmore⟩ := Option.bind_eq_some_iff.mp hrun
    obtain ⟨t, hmore, hstate⟩ := Option.map_eq_some_iff.mp hmore
    obtain ⟨hheard, hstate⟩ := Prod.mk.inj hstate
    obtain ⟨hconnected, hstages⟩ := Prod.mk.inj hstate
    obtain ⟨r, hcalls, hr⟩ := List.map_eq_singleton_iff.mp hheard
    obtain ⟨hfirst, htime⟩ := Prod.mk.inj hr
    obtain ⟨last, hlast, hstage⟩ := List.map_eq_singleton_iff.mp hstages
    exact ⟨s, t, r, last, hrun, by rw [hcalls]; rfl, hfirst, hconnected, htime, hmore,
      by rw [hlast]; rfl, hstage⟩

end CipherLink
