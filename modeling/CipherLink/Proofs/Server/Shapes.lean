import CipherLink.Proofs.Server.Turns

/-!
# Shapes of tasks

A task belongs to an admission, a watcher, a stop, or to those who only work. So it is
known what it waits for when it cannot go on.
-/

namespace CipherLink

/-- The tasks that there are: of an admission, of a watcher, of a stop, and of calls,
handlers and the relay. -/
inductive Task.Shape : Task → Prop
  | registering (h : Handle) : Shape [.register h]
  | announcing (id : ClientId) (h : Handle) : Shape [.announce id, .watch h]
  | arriving (h : Handle) : Shape [.watch h]
  | watching (h : Handle) (id : ClientId) : Shape [.awaitClosed h, .check id]
  | stopping : Shape [.awaitAdmissions, .closeAll]
  | closing : Shape [.closeAll]
  | working {task : Task} (h : ∀ a ∈ task, a.isWork = true) : Shape task
  | relaying {task : Task} (body : Task) (h : ∀ a ∈ body, a.isWork = true)
      (eq : task = body ++ [.takeCommand]) : Shape task

theorem Action.isWork_of_leadsTo {a b : Action} (ha : a.isWork = true) (h : a.leadsTo b) :
    b.isWork = true := by
  cases a <;> cases b <;> simp_all [isWork, leadsTo]

theorem Action.isAdmission_of_isWork {a : Action} (h : a.isWork = true) :
    a.isAdmission = false := by
  cases a with
  | register handle | announce id | watch handle => cases h
  | _ => rfl

theorem Task.Shape.head_isAdmission {task : Task} (h : Task.Shape task)
    {b : Action} (hb : b ∈ task) (hadmission : b.isAdmission = true) :
    ∃ head rest, task = head :: rest ∧ head.isAdmission = true := by
  cases h with
  | registering h' => exact ⟨_, _, rfl, rfl⟩
  | announcing id h' => exact ⟨_, _, rfl, rfl⟩
  | arriving h' => exact ⟨_, _, rfl, rfl⟩
  | watching h' id | stopping | closing =>
    simp only [List.mem_cons, List.not_mem_nil, or_false] at hb
    rcases hb with rfl | rfl <;> simp [Action.isAdmission] at hadmission
  | working hwork => simp [Action.isAdmission_of_isWork (hwork b hb)] at hadmission
  | relaying body hwork heq =>
    rw [heq, List.mem_append, List.mem_singleton] at hb
    obtain hb | rfl := hb
    · simp [Action.isAdmission_of_isWork (hwork b hb)] at hadmission
    · simp [Action.isAdmission] at hadmission

namespace Server

variable {s t s' : Server} {a b : Action} {next rest : Task} {started before after : List Task}

theorem Turn.shape (h : s.Turn a next rest started before after s')
    (hshape : Task.Shape (a :: rest)) : Task.Shape (next ++ rest) := by
  obtain ⟨t, htaken, -⟩ := h.taken
  have hnext := htaken.leadsTo
  cases hshape with
  | registering h' =>
    cases htaken with
    | entersNobody => exact .working nofun
    | enters => exact .announcing _ h'
    | refused => exact .working (by simp [Action.isWork])
  | announcing id h' =>
    cases htaken with
    | announces => exact .arriving h'
  | arriving h' => cases htaken <;> exact .working nofun
  | watching h' id => cases htaken <;> exact .working (by simp [Action.isWork])
  | stopping =>
    cases htaken with
    | admitted => exact .closing
  | closing =>
    refine .working ?_
    intro b hb
    rw [List.append_nil] at hb
    have hb := hnext b hb
    cases b <;> simp_all [Action.leadsTo, Action.isWork]
  | working hwork =>
    refine .working ?_
    intro b hb
    obtain hb | hb := List.mem_append.mp hb
    · exact Action.isWork_of_leadsTo (hwork a List.mem_cons_self) (hnext b hb)
    · exact hwork b (List.mem_cons_of_mem a hb)
  | relaying body hwork heq =>
    cases body with
    | nil =>
      obtain ⟨rfl, rfl⟩ := List.cons.inj heq
      cases htaken with
      | fetches => exact .relaying [_] (by simp [Action.isWork]) rfl
    | cons first body =>
      obtain ⟨rfl, rfl⟩ := List.cons.inj heq
      refine .relaying (next ++ body) ?_ (List.append_assoc _ _ _).symm
      intro b hb
      obtain hb | hb := List.mem_append.mp hb
      · exact Action.isWork_of_leadsTo (hwork a List.mem_cons_self) (hnext b hb)
      · exact hwork b (List.mem_cons_of_mem a hb)

theorem take_eq_none (h : s.take a = none) :
    (∃ h' session, a = .awaitClosed h' ∧ s.sessions[h']? = some session ∧
      session.isConnected = true) ∨
    (a = .takeCommand ∧ s.queue = []) ∨
    (a = .awaitAdmissions ∧ ∃ head rest, head :: rest ∈ s.tasks ∧ head.isAdmission = true) := by
  cases a with
  | awaitClosed h' =>
    simp only [take] at h
    split at h
    · simp at h
    · next session hsession =>
      split at h
      · next hconnected => exact .inl ⟨h', session, rfl, hsession, hconnected⟩
      · simp at h
  | takeCommand =>
    simp only [take] at h
    split at h
    · next hqueue => exact .inr (.inl ⟨rfl, hqueue⟩)
    · simp at h
  | awaitAdmissions =>
    simp only [take] at h
    split at h
    · next hany =>
      obtain ⟨task, hmem, hhead⟩ := List.any_eq_true.mp hany
      cases task with
      | nil => simp at hhead
      | cons head rest => exact .inr (.inr ⟨rfl, head, rest, hmem, hhead⟩)
    · simp at h
  | register h' | remove id | watch h' =>
    simp only [take] at h
    split at h
    all_goals try split at h
    all_goals simp at h
  | command c =>
    cases c with
    | disconnect id =>
      simp only [take] at h
      split at h <;> simp at h
    | broadcast message | sendTo message targets => simp [take] at h
  | announce id | announceGone id | close h' | check id | send message h' | closeAll =>
    simp [take] at h

theorem AtRest.take_head (hrest : s.AtRest) {task : Task} (hmem : a :: task ∈ s.tasks) :
    s.take a = none := by
  obtain ⟨index, hindex⟩ := List.mem_iff_getElem?.mp hmem
  have hstep := hrest index
  rw [stepTask?, hindex] at hstep
  cases htake : s.take a with
  | none => rfl
  | some taken => simp [htake] at hstep

theorem AtRest.task (hrest : s.AtRest) (hshape : ∀ task ∈ s.tasks, Task.Shape task) {task : Task}
    (hmem : task ∈ s.tasks) :
    task = [] ∨ (∃ h' id session, task = [.awaitClosed h', .check id] ∧
      s.sessions[h']? = some session ∧ session.isConnected = true) ∨
    (task = [.takeCommand] ∧ s.queue = []) := by
  cases task with
  | nil => exact .inl rfl
  | cons head rest =>
    right
    have hform := hshape _ hmem
    obtain ⟨h', session, rfl, hsession, hconnected⟩ | ⟨rfl, hqueue⟩ |
      ⟨rfl, b, more, htask, hadmission⟩ := take_eq_none (hrest.take_head hmem)
    · left
      cases hform with
      | watching h' id => exact ⟨h', id, session, rfl, hsession, hconnected⟩
      | working hwork => simpa [Action.isWork] using hwork _ List.mem_cons_self
      | relaying body hwork heq =>
        cases body with
        | nil => simp at heq
        | cons first body =>
          obtain ⟨rfl, -⟩ := List.cons.inj heq
          simpa [Action.isWork] using hwork _ List.mem_cons_self
    · right
      cases hform with
      | working hwork => simpa [Action.isWork] using hwork _ List.mem_cons_self
      | relaying body hwork heq =>
        cases body with
        | nil =>
          obtain ⟨-, rfl⟩ := List.cons.inj heq
          exact ⟨rfl, hqueue⟩
        | cons first body =>
          obtain ⟨rfl, -⟩ := List.cons.inj heq
          simpa [Action.isWork] using hwork _ List.mem_cons_self
    · -- An admission never has to wait, so nobody waits for one.
      obtain ⟨_, _, rfl, -⟩ | ⟨rfl, -⟩ | ⟨rfl, -⟩ := take_eq_none (hrest.take_head htask) <;>
        simp [Action.isAdmission] at hadmission

end Server

end CipherLink
