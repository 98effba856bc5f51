import CipherLink.Proofs.Sessions
import CipherLink.Server.Moves
import Mathlib.Data.List.Nodup

/-!
# Actions of tasks

What one action of a task does to the parts of a server: who enters the registry and
who leaves it, what is told, which sessions go on, and what the task does next.
-/

namespace CipherLink

/-- Whether an action can always be taken, and leads to none that cannot. -/
def Action.isWork : Action → Bool
  | .close _ | .check _ | .remove _ | .announceGone _ | .command _ | .send _ _ => true
  | _ => false

def Command.message? : Command → Option Message
  | .broadcast message | .sendTo message _ => some message
  | .disconnect _ => none

def Action.leadsTo : Action → Action → Prop
  | .register _, .announce _ | .register _, .watch _ | .register _, .close _ => True
  | .check id, .remove id' => id = id'
  | .remove _, .close _ => True
  | .remove id, .announceGone id' => id = id'
  | .command _, .close _ | .command _, .check _ => True
  | .command c, .send message _ => c.message? = some message
  | .takeCommand, .command _ | .takeCommand, .takeCommand => True
  | .closeAll, .close _ | .closeAll, .check _ => True
  | _, _ => False

namespace Registry

variable {α : Type} {r : Registry α} {id : ClientId} {a b : α}

theorem mem_of_get? (h : r.get? id = some a) : (id, a) ∈ r.entries := by
  obtain ⟨before, after, hentries, -⟩ := List.lookup_eq_some_iff.mp h
  rw [hentries]
  simp

theorem eq_of_mem (ha : (id, a) ∈ r.entries) (hb : (id, b) ∈ r.entries) : a = b := by
  have hinj := List.inj_on_of_nodup_map r.distinct ha hb rfl
  exact (Prod.mk.inj hinj).2

theorem mem_ids (h : (id, a) ∈ r.entries) : id ∈ r.ids :=
  List.mem_map_of_mem h

theorem get?_ne_none (h : (id, a) ∈ r.entries) : r.get? id ≠ none := by
  intro hnone
  rw [get?, List.lookup_eq_none_iff] at hnone
  simpa using hnone _ h

end Registry

namespace Server

theorem closeSession_eq (s : Server) (h : Handle) : ∃ sessions,
    s.closeSession h = { s with sessions } ∧ Session.Kept s.sessions sessions ∧
      ∀ session, sessions[h]? = some session → session.isConnected = false := by
  rw [closeSession]
  split
  · next session hsession =>
    refine ⟨_, rfl, Session.kept_set hsession rfl nofun, ?_⟩
    intro closed hclosed
    rw [List.getElem?_set_self (List.getElem?_eq_some_iff.mp hsession).1, Option.some.injEq]
      at hclosed
    rw [← hclosed]
    rfl
  · next hnone =>
    refine ⟨_, rfl, Session.kept_refl _, ?_⟩
    intro session hsession
    simp [hnone] at hsession

theorem sendOne_eq (s : Server) (message : Message) (h : Handle) : ∃ sessions delivered noise,
    s.sendOne message h = { s with sessions, delivered, noise } ∧
      Session.Kept s.sessions sessions := by
  rw [sendOne]
  split
  · exact ⟨_, _, _, rfl, Session.kept_refl _⟩
  · next session hsession =>
    split
    · next size next hsend =>
      obtain ⟨hid, hconnected⟩ := Session.send_eq_some hsend
      exact ⟨_, _, _, rfl, Session.kept_set hsession hid fun h => hconnected ▸ h⟩
    · next cause next hsend =>
      obtain ⟨hid, hconnected⟩ := Session.send_eq_some hsend
      exact ⟨_, _, _, rfl, Session.kept_set hsession hid fun h => hconnected ▸ h⟩
    · exact ⟨_, _, _, rfl, Session.kept_refl _⟩

variable {s t : Server} {a : Action} {next : Task} {started : List Task}

/-- How an action is taken: what the task takes next, the tasks that are started and the
server behind it. -/
inductive Taken (s : Server) : Action → Task → List Task → Server → Prop
  | entersNobody {h : Handle} (hnone : s.sessions[h]? = none) : Taken s (.register h) [] [] s
  | enters {h : Handle} {session : Session} {registry : Registry Handle}
      (hsession : s.sessions[h]? = some session) (absent : session.id ∉ s.registry.ids)
      (entries : registry.entries = s.registry.entries ++ [(session.id, h)]) :
      Taken s (.register h) [.announce session.id, .watch h] [] { s with registry }
  | refused {h : Handle} {session : Session} (hsession : s.sessions[h]? = some session)
      (present : session.id ∈ s.registry.ids) : Taken s (.register h) [.close h] [] s
  | announces (id : ClientId) :
      Taken s (.announce id) [] [] { s with events := s.events ++ [.connected id] }
  | watchesNobody {h : Handle} (hnone : s.sessions[h]? = none) : Taken s (.watch h) [] [] s
  | watches {h : Handle} {session : Session} (hsession : s.sessions[h]? = some session) :
      Taken s (.watch h) [] [[.awaitClosed h, .check session.id]] s
  | seesNobody {h : Handle} (hnone : s.sessions[h]? = none) : Taken s (.awaitClosed h) [] [] s
  | seesClosed {h : Handle} {session : Session} (hsession : s.sessions[h]? = some session)
      (hclosed : session.isConnected = false) : Taken s (.awaitClosed h) [] [] s
  | closes (h : Handle) : Taken s (.close h) [] [] (s.closeSession h)
  | finds {id : ClientId} (present : id ∈ s.registry.ids) : Taken s (.check id) [.remove id] [] s
  | misses {id : ClientId} (absent : id ∉ s.registry.ids) : Taken s (.check id) [] [] s
  | leaves {id : ClientId} {h : Handle} {registry : Registry Handle}
      (present : s.registry.get? id = some h)
      (entries : registry.entries = s.registry.entries.filter fun entry => entry.1 != id) :
      Taken s (.remove id) [.close h, .announceGone id] [] { s with registry }
  | hasLeft {id : ClientId} (absent : s.registry.get? id = none) : Taken s (.remove id) [] [] s
  | announcesGone (id : ClientId) :
      Taken s (.announceGone id) [] [] { s with events := s.events ++ [.disconnected id] }
  | disconnects {id : ClientId} {h : Handle} (present : s.registry.get? id = some h) :
      Taken s (.command (.disconnect id)) [.close h, .check id] [] s
  | passesOver {id : ClientId} (absent : s.registry.get? id = none) :
      Taken s (.command (.disconnect id)) [] [] s
  | broadcasts (message : Message) :
      Taken s (.command (.broadcast message)) (s.registry.handles.map (.send message)) [] s
  | sendsTo (message : Message) (targets : List ClientId) :
      Taken s (.command (.sendTo message targets))
        ((s.registry.select targets).map (.send message)) [] s
  | sends (message : Message) (h : Handle) :
      Taken s (.send message h) [] [] (s.sendOne message h)
  | fetches {c : Command} {queue : List Command} (hqueue : s.queue = c :: queue) :
      Taken s .takeCommand [.command c, .takeCommand] [] { s with queue }
  | admitted (hnone : ∀ head rest, head :: rest ∈ s.tasks → head.isAdmission = false) :
      Taken s .awaitAdmissions [] [] s
  | closesAll : Taken s .closeAll
      (s.registry.entries.flatMap fun (id, h) => [.close h, .check id]) [] s

theorem taken_of_take (h : s.take a = some (next, started, t)) : s.Taken a next started t := by
  cases a with
  | register h' =>
    simp only [take] at h
    split at h
    · next hnone =>
      cases h
      exact .entersNobody hnone
    · next session hsession =>
      by_cases hpresent : s.registry.contains session.id = true
      · simp only [Registry.register, hpresent, dif_pos] at h
        cases h
        exact .refused hsession (Registry.contains_iff.mp hpresent)
      · simp only [Registry.register, hpresent] at h
        cases h
        rw [Registry.contains_iff] at hpresent
        exact .enters hsession hpresent rfl
  | announce id =>
    cases h
    exact .announces id
  | watch h' =>
    simp only [take] at h
    split at h
    · next hnone =>
      cases h
      exact .watchesNobody hnone
    · next session hsession =>
      cases h
      exact .watches hsession
  | awaitClosed h' =>
    simp only [take] at h
    split at h
    · next hnone =>
      cases h
      exact .seesNobody hnone
    · next session hsession =>
      split at h
      · simp at h
      · next hclosed =>
        cases h
        exact .seesClosed hsession (Bool.not_eq_true _ ▸ hclosed)
  | close h' =>
    cases h
    exact .closes h'
  | check id =>
    by_cases hpresent : s.registry.contains id = true
    · simp only [take, hpresent, if_true] at h
      cases h
      exact .finds (Registry.contains_iff.mp hpresent)
    · simp only [take, hpresent] at h
      cases h
      exact .misses fun hmem => hpresent (Registry.contains_iff.mpr hmem)
  | remove id =>
    simp only [take, Registry.unregister] at h
    split at h
    · next h' registry hremoved =>
      cases h
      obtain ⟨hpresent, rfl⟩ := Prod.mk.inj hremoved
      exact .leaves hpresent rfl
    · next registry hremoved =>
      cases h
      exact .hasLeft (Prod.mk.inj hremoved).1
  | announceGone id =>
    cases h
    exact .announcesGone id
  | command c =>
    cases c with
    | disconnect id =>
      simp only [take] at h
      split at h
      · next h' hpresent =>
        cases h
        exact .disconnects hpresent
      · next habsent =>
        cases h
        exact .passesOver habsent
    | broadcast message =>
      cases h
      exact .broadcasts message
    | sendTo message targets =>
      cases h
      exact .sendsTo message targets
  | send message h' =>
    cases h
    exact .sends message h'
  | takeCommand =>
    simp only [take] at h
    split at h
    · simp at h
    · next c queue hqueue =>
      cases h
      exact .fetches hqueue
  | awaitAdmissions =>
    simp only [take] at h
    split at h
    · simp at h
    · next hnone =>
      cases h
      refine .admitted ?_
      intro head rest hmem
      by_contra hadmission
      rw [Bool.not_eq_false] at hadmission
      exact hnone (List.any_eq_true.mpr ⟨_, hmem, by simpa using hadmission⟩)
  | closeAll =>
    cases h
    exact .closesAll

inductive Effect (s : Server) : Action → Task → Server → Prop
  | enters {h : Handle} {session : Session} {t : Server} (hsession : s.sessions[h]? = some session)
      (absent : session.id ∉ s.registry.ids)
      (entries : t.registry.entries = s.registry.entries ++ [(session.id, h)])
      (sessions : t.sessions = s.sessions) (events : t.events = s.events) :
      Effect s (.register h) [.announce session.id, .watch h] t
  | leaves {id : ClientId} {h : Handle} {t : Server} (present : s.registry.get? id = some h)
      (entries : t.registry.entries = s.registry.entries.filter fun entry => entry.1 != id)
      (sessions : t.sessions = s.sessions) (events : t.events = s.events) :
      Effect s (.remove id) [.close h, .announceGone id] t
  | stays {a : Action} {next : Task} {t : Server} (registry : t.registry = s.registry)
      (quiet : ∀ id, .announce id ∉ next ∧ .announceGone id ∉ next)
      (kept : Session.Kept s.sessions t.sessions)
      (events : t.events = s.events ++ match a with
        | .announce id => [.connected id]
        | .announceGone id => [.disconnected id]
        | _ => []) : Effect s a next t

theorem Taken.effect (h : s.Taken a next started t) : s.Effect a next t := by
  have hkept := Session.kept_refl s.sessions
  cases h with
  | enters hsession absent entries => exact .enters hsession absent entries rfl rfl
  | leaves present entries => exact .leaves present entries rfl rfl
  | closes h' =>
    obtain ⟨sessions, hclose, hsessions, -⟩ := s.closeSession_eq h'
    rw [hclose]
    exact .stays rfl (by simp) hsessions (List.append_nil _).symm
  | sends message h' =>
    obtain ⟨sessions, delivered, noise, hsend, hsessions⟩ := s.sendOne_eq message h'
    rw [hsend]
    exact .stays rfl (by simp) hsessions (List.append_nil _).symm
  | announces id | announcesGone id => exact .stays rfl (by simp) hkept rfl
  | _ => exact .stays rfl (by simp) hkept (List.append_nil _).symm

theorem Taken.steady (h : s.Taken a next started t) : t.tasks = s.tasks ∧
    t.isRunning = s.isRunning ∧ t.subscriptions = s.subscriptions ∧
      (a ≠ .takeCommand → t.queue = s.queue) := by
  cases h with
  | closes h' =>
    obtain ⟨sessions, hclose, -⟩ := s.closeSession_eq h'
    rw [hclose]
    exact ⟨rfl, rfl, rfl, fun _ => rfl⟩
  | sends message h' =>
    obtain ⟨sessions, delivered, noise, hsend, -⟩ := s.sendOne_eq message h'
    rw [hsend]
    exact ⟨rfl, rfl, rfl, fun _ => rfl⟩
  | fetches hqueue => exact ⟨rfl, rfl, rfl, fun hne => absurd rfl hne⟩
  | _ => exact ⟨rfl, rfl, rfl, fun _ => rfl⟩

theorem Taken.leadsTo (h : s.Taken a next started t) : ∀ b ∈ next, a.leadsTo b := by
  cases h with
  | closesAll =>
    simp only [List.mem_flatMap]
    rintro b ⟨⟨id, h'⟩, -, hmem⟩
    simp only [List.mem_cons, List.not_mem_nil, or_false] at hmem
    rcases hmem with rfl | rfl <;> simp [Action.leadsTo]
  | _ => simp [Action.leadsTo, Command.message?]

theorem Taken.starts (h : s.Taken a next started t) :
    started = [] ∨ ∃ h' session, a = .watch h' ∧ s.sessions[h']? = some session ∧
      started = [[.awaitClosed h', .check session.id]] := by
  cases h with
  | watches hsession => exact .inr ⟨_, _, rfl, hsession, rfl⟩
  | _ => exact .inl rfl

end Server

end CipherLink
