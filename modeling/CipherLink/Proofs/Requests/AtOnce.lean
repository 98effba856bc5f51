import CipherLink.Client.Busy
import CipherLink.Proofs.Subscriptions.Registry

/-!
# Requests and publications in one piece

When nothing comes in between, the moves of a busy client are what a client does alone: a send, a
look of a request and a publication.
-/

namespace CipherLink

def RequestStage.behindSend : Except SessionError Nat → RequestStage
  | .ok _ => .waiting
  | .error cause => .leaving (.error (.send cause))

def RequestStage.behindLook : Option (Except RequestError Message) → RequestStage
  | some outcome => .leaving outcome
  | none => .waiting

namespace Client

variable {c : Client} {r : RequestCall}

def attendAll (c : Client) (r : RequestCall) : List RequestEvent → Option (RequestCall × Client)
  | [] => some (r, c)
  | event :: events => (c.attend r event).bind fun next => next.2.attendAll next.1 events

theorem isClosed_eq {h : Handle} (hheld : c.held = .active h) :
    c.isClosed = !c.isConnectedOn h := by
  simp only [isClosed, slot, hheld, isConnectedOn]
  cases c.sessions[h]? <;> rfl

theorem attendAll_look (c : Client) (hstage : r.stage = .waiting)
    (hheld : c.held = .active r.handle) :
    ∃ n, c.attendAll r ([.looks, .checks, .times].take n) = some ({ r with
      stage := .behindLook (c.requestOutcome? r.request r.limit r.timeIsOver) }, c) := by
  rw [requestOutcome?, isClosed_eq hheld]
  cases hanswer : c.answer? r.request with
  | some message => exact ⟨1, by simp [attendAll, attend, hstage, hanswer, RequestStage.behindLook]⟩
  | none =>
    cases hconnected : c.isConnectedOn r.handle with
    | false =>
      exact ⟨2, by simp [attendAll, attend, hstage, hanswer, hconnected, RequestStage.behindLook]⟩
    | true =>
      cases htime : r.timeIsOver with
      | false =>
        exact ⟨3, by simp [attendAll, attend, hstage, hanswer, hconnected, htime,
          RequestStage.behindLook]⟩
      | true =>
        exact ⟨3, by simp [attendAll, attend, hstage, hanswer, hconnected, htime,
          RequestStage.behindLook]⟩

theorem attendAll_send (c : Client) (hstage : r.stage = .asking) (noise : Noise) :
    ∃ n, c.attendAll r ([.asks, .writes noise].take n) =
      (c.sendOn r.handle (·.send r.message noise)).map fun out =>
        ({ r with stage := .behindSend out.1 }, out.2) := by
  cases hsession : c.sessions[r.handle]? with
  | none =>
    have hconnected : c.isConnectedOn r.handle = false := by rw [isConnectedOn, hsession]; rfl
    exact ⟨1, by simp [attendAll, attend, hstage, hconnected, sendOn, hsession,
      RequestStage.behindSend]⟩
  | some session =>
    have hconnected : c.isConnectedOn r.handle = session.isConnected := by
      rw [isConnectedOn, hsession]
      rfl
    by_cases hopen : session.isConnected = true
    · refine ⟨2, ?_⟩
      simp only [List.take, attendAll, attend, hstage, hconnected, hopen, if_true, sendOn, hsession,
        Session.send, Option.bind_some]
      rw [Session.write, FrameWriter.perform]
      cases session.channel.writer.write r.message noise with
      | none => rfl
      | some step =>
        obtain ⟨outcome, writer⟩ := step
        cases outcome <;> rfl
    · have hsame : c.setSession r.handle session = c := by
        obtain ⟨hlt, hget⟩ := List.getElem?_eq_some_iff.mp hsession
        rw [setSession, ← hget, List.set_getElem_self]
      refine ⟨1, ?_⟩
      simp [attendAll, attend, hstage, hconnected, hopen, sendOn, hsession, Session.send, hsame,
        RequestStage.behindSend]

end Client

namespace BusyClient

variable {s t : BusyClient} {i : Nat} {r : RequestCall}

theorem follow_calls (hcall : s.calls[i]? = some r) (events : List RequestEvent) :
    s.follow (events.map (.call i)) = (s.client.attendAll r events).map fun next =>
      { s with client := next.2, calls := s.calls.set i next.1 } := by
  induction events generalizing s r with
  | nil =>
    obtain ⟨hlt, hget⟩ := List.getElem?_eq_some_iff.mp hcall
    simp [follow, Client.attendAll, ← hget]
  | cons event events ih =>
    have hmove : s.move (.call i event) = (s.client.attend r event).map fun next =>
        { s with client := next.2, calls := s.calls.set i next.1 } := by
      simp only [move, hcall, Option.bind_eq_bind, Option.bind_some]
      cases s.client.attend r event <;> rfl
    rw [List.map_cons, follow, hmove, Client.attendAll]
    cases s.client.attend r event with
    | none => rfl
    | some next =>
      have hnext := getElem?_set_of_some hcall next.1
      rw [Option.map_some, Option.bind_some, Option.bind_some]
      exact (ih hnext).trans (by simp only [List.set_set])

theorem send_at_once (hcall : s.calls[i]? = some r) (hstage : r.stage = .asking) (noise : Noise) :
    ∃ n, s.follow (([.asks, .writes noise].take n).map (.call i)) =
      (s.client.sendOn r.handle (·.send r.message noise)).map fun out =>
        { s with
          client := out.2
          calls := s.calls.set i { r with stage := .behindSend out.1 } } := by
  obtain ⟨n, hsend⟩ := s.client.attendAll_send hstage noise
  refine ⟨n, (follow_calls hcall _).trans ?_⟩
  rw [hsend, Option.map_map]
  rfl

theorem look_at_once (hcall : s.calls[i]? = some r) (hstage : r.stage = .waiting)
    (hheld : s.client.held = .active r.handle) :
    ∃ n, s.follow (([.looks, .checks, .times].take n).map (.call i)) =
      some { s with calls := s.calls.set i { r with
        stage := .behindLook (s.client.requestOutcome? r.request r.limit r.timeIsOver) } } := by
  obtain ⟨n, hlook⟩ := s.client.attendAll_look hstage hheld
  refine ⟨n, (follow_calls hcall _).trans ?_⟩
  rw [hlook, Option.map_some]

theorem follow_last (front : List Publishing) (name : Nat) (message : Message)
    (delivery : Delivery) (left : List ClientHandler) (completed : Nat)
    (hlast : s.publications = front ++ [⟨name, message, delivery, left, false, completed⟩]) :
    ∃ t, s.follow ((left.map fun _ => [.enter front.length, .leave front.length true]).flatten ++
        [.finish front.length]) = some t ∧ t.publications = front ∧ t.calls = s.calls ∧
      t.client = left.foldl (fun c handler => (Client.handle message delivery handler c).2)
        s.client := by
  have hplace : s.publications[front.length]? =
      some ⟨name, message, delivery, left, false, completed⟩ := by
    rw [hlast]
    exact List.getElem?_concat_length
  induction left generalizing s completed with
  | nil =>
    have hfinish : s.finish front.length = some ({ s with
        publications := s.publications.eraseIdx front.length }.note (.ended name completed)) := by
      rw [finish, hplace]
    refine ⟨_, Option.bind_eq_some_iff.mpr ⟨_, hfinish, rfl⟩, ?_, rfl, rfl⟩
    show s.publications.eraseIdx front.length = front
    rw [hlast, List.eraseIdx_append_of_length_le (Nat.le_refl _), Nat.sub_self]
    exact List.append_nil front
  | cons handler left ih =>
    let called : Publishing := ⟨name, message, delivery, left, true, completed⟩
    let returned : Publishing := ⟨name, message, delivery, left, false, completed + 1⟩
    let entered : BusyClient :=
      (setPublication { s with client := (Client.handle message delivery handler s.client).2 }
        front.length called).note (.entered name handler message delivery)
    have henter : s.enter front.length = some entered := by
      rw [enter, hplace]
    have hentered : entered.publications = front ++ [called] := by
      rw [← set_concat_length front _ called, ← hlast]
      rfl
    have hcalled : entered.publications[front.length]? = some called := by
      rw [hentered]
      exact List.getElem?_concat_length
    let behind : BusyClient :=
      (entered.setPublication front.length returned).note (.left name true)
    have hleave : entered.leave front.length true = some behind := by
      rw [leave, hcalled]
      rfl
    have hreturned : behind.publications = front ++ [returned] := by
      rw [← set_concat_length front called returned, ← hentered]
      rfl
    obtain ⟨t, hrun, hpublications, hcalls, hclient⟩ :=
      ih (completed + 1) hreturned (by rw [hreturned]; exact List.getElem?_concat_length)
    refine ⟨t, ?_, hpublications, hcalls, hclient⟩
    rw [List.map_cons, List.flatten_cons]
    refine Option.bind_eq_some_iff.mpr ⟨entered, henter, ?_⟩
    exact Option.bind_eq_some_iff.mpr ⟨behind, hleave, hrun⟩

theorem publish_at_once (s : BusyClient) (message : Message) (delivery : Delivery) :
    ∃ moves t, s.follow (.publish message.key message delivery :: moves) = some t ∧
      t.publications = s.publications ∧ t.calls = s.calls ∧
      t.client = s.client.publish message delivery := by
  let begun := s.begin message.key message delivery
  have hbegun : begun.publications = s.publications ++ [⟨s.log.length, message, delivery,
      s.client.subscriptions.snapshot message.key, false, 0⟩] := rfl
  obtain ⟨t, hrun, hpublications, hcalls, hclient⟩ := follow_last _ _ _ _ _ _ hbegun
  refine ⟨_, t, Option.bind_eq_some_iff.mpr ⟨begun, rfl, hrun⟩, hpublications, hcalls, ?_⟩
  rw [hclient, Client.publish, Subscriptions.runAll_snd]
  rfl

end BusyClient

end CipherLink
