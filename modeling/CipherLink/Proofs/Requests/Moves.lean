import CipherLink.Client.Busy

/-!
# Moves of busy clients

What a move of a busy client comes to: a step of one request, a use of the subscriptions, a step
of one publication, or something that concerns the sessions only.
-/

namespace CipherLink

inductive Client.Attends (c : Client) (r : RequestCall) : RequestCall → Prop
  | asked (stage : r.stage = .asking) : Attends c r { r with stage := .sending }
  | refused (stage : r.stage = .asking) :
      Attends c r { r with stage := .leaving (.error (.send .notConnected)) }
  | sent (stage : r.stage = .sending) : Attends c r { r with stage := .waiting }
  | failed (stage : r.stage = .sending) (cause : SessionError) :
      Attends c r { r with stage := .leaving (.error (.send cause)) }
  | answered {message : Message} (stage : r.stage = .waiting)
      (answer : c.answer? r.request = some message) :
      Attends c r { r with stage := .leaving (.ok message) }
  | unanswered (stage : r.stage = .waiting) (answer : c.answer? r.request = none) :
      Attends c r { r with stage := .checking }
  | connected (stage : r.stage = .checking) : Attends c r { r with stage := .timing }
  | disconnected (stage : r.stage = .checking) :
      Attends c r { r with stage := .leaving (.error .disconnected) }
  | early (stage : r.stage = .timing) : Attends c r { r with stage := .waiting }
  | late (stage : r.stage = .timing) :
      Attends c r { r with stage := .leaving (.error (.timeout r.limit)) }
  | expires (stage : r.stage = .waiting ∨ r.stage = .checking ∨ r.stage = .timing) :
      Attends c r { r with timeIsOver := true }

namespace Client

variable {c c' : Client} {r next : RequestCall}

theorem Attends.keeps (h : c.Attends r next) :
    next.request = r.request ∧ next.responseKey = r.responseKey := by
  cases h <;> exact ⟨rfl, rfl⟩

theorem Attends.isUnderWay (h : c.Attends r next) :
    r.stage.isUnderWay = true ∧ next.stage.isUnderWay = true := by
  cases h with
  | expires stage =>
    have hunder : r.stage.isUnderWay = true := by
      obtain hstage | hstage | hstage := stage <;> rw [hstage] <;> rfl
    exact ⟨hunder, hunder⟩
  | _ stage => exact ⟨by rw [stage]; rfl, rfl⟩

theorem Attends.ne_leaving (h : c.Attends r next) (outcome : Except RequestError Message) :
    r.stage ≠ .leaving outcome := by
  intro hleaving
  cases h with
  | expires stage => obtain hstage | hstage | hstage := stage <;> cases hstage.symm.trans hleaving
  | _ stage => cases stage.symm.trans hleaving

theorem sendOn_sessions {h : Handle} {result : Except SessionError Nat}
    {write : Session → Option (Except SessionError Nat × Session)}
    (hsend : c.sendOn h write = some (result, c')) : ∃ sessions, c' = { c with sessions } := by
  rw [sendOn] at hsend
  split at hsend
  · cases hsend
    exact ⟨_, rfl⟩
  · obtain ⟨out, -, hafter⟩ := Option.map_eq_some_iff.mp hsend
    cases hafter
    exact ⟨_, rfl⟩

theorem attends_of_attend {event : RequestEvent} (h : c.attend r event = some (next, c')) :
    c.Attends r next ∧ ∃ sessions, c' = { c with sessions } := by
  rw [attend.eq_def] at h
  split at h
  · next hstage =>
    split at h
    · cases h
      exact ⟨.asked hstage, _, rfl⟩
    · cases h
      exact ⟨.refused hstage, _, rfl⟩
  · next hstage =>
    split at h
    · cases h
    · next hsend =>
      cases h
      exact ⟨.sent hstage, sendOn_sessions hsend⟩
    · next hsend =>
      cases h
      exact ⟨.failed hstage _, sendOn_sessions hsend⟩
  · next hstage =>
    split at h
    · next hanswer =>
      cases h
      exact ⟨.answered hstage hanswer, _, rfl⟩
    · next hanswer =>
      cases h
      exact ⟨.unanswered hstage hanswer, _, rfl⟩
  · next hstage =>
    split at h
    · cases h
      exact ⟨.connected hstage, _, rfl⟩
    · cases h
      exact ⟨.disconnected hstage, _, rfl⟩
  · next hstage =>
    split at h
    · cases h
      exact ⟨.late hstage, _, rfl⟩
    · cases h
      exact ⟨.early hstage, _, rfl⟩
  · next hstage =>
    cases h
    exact ⟨.expires (.inl hstage), _, rfl⟩
  · next hstage =>
    cases h
    exact ⟨.expires (.inr (.inl hstage)), _, rfl⟩
  · next hstage =>
    cases h
    exact ⟨.expires (.inr (.inr hstage)), _, rfl⟩
  · cases h

end Client

namespace BusyClient

inductive Moved (s : BusyClient) : BusyClient → Prop
  | rests (sessions : List Session) (held : Slot Handle) :
      Moved s { s with client := { s.client with sessions, held } }
  | requests (h : Handle) (message : Message) (responseKey : MessageKey) (limit : Duration) :
      Moved s (s.request h message responseKey limit)
  | advances {i : Nat} {r next : RequestCall} (sessions : List Session)
      (call : s.calls[i]? = some r) (attends : s.client.Attends r next) :
      Moved s { s with client := { s.client with sessions }, calls := s.calls.set i next }
  | ends {i : Nat} {r : RequestCall} {outcome : Except RequestError Message}
      (call : s.calls[i]? = some r) (stage : r.stage = .leaving outcome) :
      Moved s (s.retire i r (some outcome))
  | drops {i : Nat} {r : RequestCall} (call : s.calls[i]? = some r)
      (stage : r.stage = .sending ∨ r.stage = .waiting) : Moved s (s.retire i r none)
  | subscribes (key : MessageKey) : Moved s (s.subscribe key)
  | unsubscribes (ordinal : Nat) : Moved s (s.unsubscribe ordinal)
  | begins (sessions : List Session) (key : MessageKey) (message : Message)
      (delivery : Delivery) :
      Moved s ({ s with client := { s.client with sessions } }.begin key message delivery)
  | enters {i : Nat} {t : BusyClient} (h : s.enter i = some t) : Moved s t
  | leaves {i : Nat} {completed : Bool} {t : BusyClient} (h : s.leave i completed = some t) :
      Moved s t
  | finishes {i : Nat} {t : BusyClient} (h : s.finish i = some t) : Moved s t

variable {s t : BusyClient} {m : BusyMove}

theorem moved_of_read {h : Handle} (hread : s.read h = some t) : s.Moved t := by
  rw [read] at hread
  split at hread
  · cases hread
  · split at hread
    · cases hread
      exact .rests _ _
    · cases hread
      exact .rests _ _
    · cases hread
      exact .begins _ _ _ _

theorem moved_of_move (h : s.move m = some t) : s.Moved t := by
  cases m with
  | connected session =>
    cases h
    exact .rests _ _
  | request handle message responseKey limit =>
    cases h
    exact .requests _ _ _ _
  | call i event =>
    obtain ⟨r, hcall, h⟩ := Option.bind_eq_some_iff.mp h
    obtain ⟨⟨next, client⟩, hattend, h⟩ := Option.bind_eq_some_iff.mp h
    obtain ⟨hattends, sessions, rfl⟩ := Client.attends_of_attend hattend
    cases h
    exact .advances sessions hcall hattends
  | ends i =>
    obtain ⟨r, hcall, h⟩ := Option.bind_eq_some_iff.mp h
    split at h
    · next hstage =>
      cases h
      exact .ends hcall hstage
    · cases h
  | drops i =>
    obtain ⟨r, hcall, h⟩ := Option.bind_eq_some_iff.mp h
    split at h
    · next hstage =>
      cases h
      exact .drops hcall (.inl hstage)
    · next hstage =>
      cases h
      exact .drops hcall (.inr hstage)
    · cases h
  | subscribe key =>
    cases h
    exact .subscribes key
  | unsubscribe ordinal =>
    cases h
    exact .unsubscribes ordinal
  | read handle => exact moved_of_read h
  | publish key message delivery =>
    cases h
    exact .begins s.client.sessions key message delivery
  | enter i => exact .enters h
  | leave i completed => exact .leaves h
  | finish i => exact .finishes h
  | channel handle change =>
    cases h
    exact .rests _ _
  | close handle =>
    cases h
    exact .rests _ _

end BusyClient

end CipherLink
