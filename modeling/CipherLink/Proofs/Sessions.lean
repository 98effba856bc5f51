import CipherLink.Proofs.Subscriptions.Registry
import CipherLink.Session

/-!
# Sessions that go on

Nothing that happens to a session changes its id, and none that has closed comes back to
life. So a list of sessions tells the same clients as before, of which fewer may be
connected.
-/

namespace CipherLink

/-- Whether sessions are the same clients as before, of which none has come back to
life. -/
def Session.Kept (old new : List Session) : Prop :=
  new.map Session.id = old.map Session.id ∧ ∀ (h : Nat) (a b : Session), old[h]? = some a →
    new[h]? = some b → b.isConnected = true → a.isConnected = true

namespace Session

theorem kept_refl (sessions : List Session) : Kept sessions sessions := by
  refine ⟨rfl, ?_⟩
  intro h a b ha hb hconnected
  rw [ha, Option.some.injEq] at hb
  rwa [hb]

theorem Kept.trans {old middle new : List Session} (hfirst : Kept old middle)
    (hsecond : Kept middle new) : Kept old new := by
  refine ⟨hsecond.1.trans hfirst.1, ?_⟩
  intro h a c ha hc hconnected
  have hlength : h < middle.length := by
    have hids := congrArg List.length hfirst.1
    rw [List.length_map, List.length_map] at hids
    rw [hids]
    exact (List.getElem?_eq_some_iff.mp ha).1
  have hb := List.getElem?_eq_getElem hlength
  exact hfirst.2 h a _ ha hb (hsecond.2 h _ c hb hc hconnected)

theorem kept_set {sessions : List Session} {h : Handle} {session next : Session}
    (hsession : sessions[h]? = some session) (hid : next.id = session.id)
    (hconnected : next.isConnected = true → session.isConnected = true) :
    Kept sessions (sessions.set h next) := by
  refine ⟨?_, ?_⟩
  · obtain ⟨hlt, rfl⟩ := List.getElem?_eq_some_iff.mp hsession
    rw [List.map_set, hid, ← List.getElem_map Session.id (h := by simpa using hlt),
      List.set_getElem_self]
  · intro i a b ha hb hnext
    by_cases hi : h = i
    · subst hi
      rw [List.getElem?_set_self (List.getElem?_eq_some_iff.mp hsession).1, Option.some.injEq] at hb
      rw [hsession, Option.some.injEq] at ha
      subst ha hb
      exact hconnected hnext
    · rw [List.getElem?_set_ne hi, ha, Option.some.injEq] at hb
      rwa [hb]

theorem Kept.exists_id {old new : List Session} (hkept : Kept old new) {h : Handle} {a : Session}
    (ha : old[h]? = some a) : ∃ b, new[h]? = some b ∧ b.id = a.id := by
  have hids : (new.map Session.id)[h]? = (old.map Session.id)[h]? := by rw [hkept.1]
  rw [List.getElem?_map, List.getElem?_map, ha, Option.map_some, Option.map_eq_some_iff] at hids
  exact hids

theorem Kept.exists_old {old new : List Session} (hkept : Kept old new) {h : Handle} {b : Session}
    (hb : new[h]? = some b) : ∃ a, old[h]? = some a ∧ b.id = a.id ∧
      (b.isConnected = true → a.isConnected = true) := by
  have hids : (old.map Session.id)[h]? = (new.map Session.id)[h]? := by rw [hkept.1]
  rw [List.getElem?_map, List.getElem?_map, hb, Option.map_some, Option.map_eq_some_iff] at hids
  obtain ⟨a, ha, hid⟩ := hids
  exact ⟨a, ha, hid.symm, hkept.2 h a b ha hb⟩

theorem kept_modify (sessions : List Session) (h : Handle) {change : Session → Session}
    (hchange : ∀ s : Session, (change s).id = s.id ∧
      ((change s).isConnected = true → s.isConnected = true)) :
    Kept sessions (sessions.modify h change) := by
  refine ⟨?_, ?_⟩
  · apply List.ext_getElem?
    intro i
    rw [List.getElem?_map, List.getElem?_map, List.getElem?_modify]
    cases sessions[i]? with
    | none => rfl
    | some session => by_cases hi : h = i <;> simp [hi, (hchange session).1]
  · intro i a b ha hb hconnected
    rw [List.getElem?_modify, ha, Option.map_eq_map, Option.map_some, Option.some.injEq] at hb
    subst hb
    by_cases hi : h = i
    · rw [if_pos hi] at hconnected
      exact (hchange a).2 hconnected
    · rwa [if_neg hi] at hconnected

theorem afterWrite_keeps (s : Session) (step : FrameWriter.Step) :
    (s.afterWrite step).2.id = s.id ∧ (s.afterWrite step).2.isConnected = s.isConnected := by
  obtain ⟨outcome, writer⟩ := step
  cases outcome with
  | error cause => exact ⟨rfl, rfl⟩
  | ok size => exact ⟨rfl, rfl⟩

section

variable {s next : Session} {noise : Noise} {result : Except SessionError Nat}

theorem send_eq_some {message : Message} (h : s.send message noise = some (result, next)) :
    next.id = s.id ∧ next.isConnected = s.isConnected := by
  rw [send] at h
  split at h
  · obtain ⟨step, -, hafter⟩ := Option.map_eq_some_iff.mp h
    obtain rfl : (s.afterWrite step).2 = next := congrArg Prod.snd hafter
    exact s.afterWrite_keeps step
  · obtain ⟨-, rfl⟩ := Prod.mk.inj (Option.some.inj h)
    exact ⟨rfl, rfl⟩

theorem sendEmpty_eq_some (h : s.sendEmpty noise = some (result, next)) :
    next.id = s.id ∧ next.isConnected = s.isConnected := by
  rw [sendEmpty] at h
  split at h
  · obtain ⟨step, -, hafter⟩ := Option.map_eq_some_iff.mp h
    obtain rfl : (s.afterWrite step).2 = next := congrArg Prod.snd hafter
    exact s.afterWrite_keeps step
  · obtain ⟨-, rfl⟩ := Prod.mk.inj (Option.some.inj h)
    exact ⟨rfl, rfl⟩

end

theorem read_keeps (s : Session) :
    s.read.2.id = s.id ∧ (s.read.2.isConnected = true → s.isConnected = true) := by
  rw [read]
  split
  · exact ⟨rfl, fun h => h⟩
  · split
    · exact ⟨rfl, fun h => h⟩
    · exact ⟨rfl, fun h => h⟩
    · next outcome reader _ =>
      cases outcome with
      | message message size => exact ⟨rfl, fun h => h⟩
      | empty size => exact ⟨rfl, fun h => h⟩
      | closed => exact ⟨rfl, nofun⟩
      | error cause =>
        by_cases htransient : cause.isTransient = true
        · simp [htransient]
        · simp [htransient, ended]

theorem read_writer (s : Session) : s.read.2.channel.writer = s.channel.writer := by
  rw [read]
  split
  · rfl
  · split
    · rfl
    · rfl
    · next outcome reader _ =>
      cases outcome with
      | error cause =>
        by_cases htransient : cause.isTransient = true
        · simp [htransient]
        · simp [htransient, ended]
      | _ => rfl

end Session

def plainChannel (limit : Nat) : Channel :=
  .ofLink ⟨⟨KeyExchangeAlgorithm.identity.descriptor, SymmetricAlgorithm.identity.descriptor, 16⟩,
    ⟨.identity, .zero⟩, ⟨.identity, .zero⟩⟩ limit .live

end CipherLink
