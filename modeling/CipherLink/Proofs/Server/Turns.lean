import CipherLink.Proofs.Server.Actions

/-!
# Turns of tasks

A task takes its first action: what is behind it stands where it stood, and what it
starts comes last.
-/

namespace CipherLink.Server

variable {s t : Server} {a : Action} {next : Task} {started : List Task}

def pending (s : Server) : List Action :=
  s.tasks.flatten

structure Turn (s : Server) (a : Action) (next rest : Task) (started before after : List Task)
    (s' : Server) : Prop where
  tasks : s.tasks = before ++ (a :: rest) :: after
  tasks' : s'.tasks = before ++ (next ++ rest) :: (after ++ started)
  taken : ∃ t, s.Taken a next started t ∧ s' = { t with tasks := s'.tasks }

theorem Effect.withTasks (h : s.Effect a next t) (tasks : List Task) :
    s.Effect a next { t with tasks } := by
  cases h with
  | enters hsession absent entries sessions events =>
    exact .enters hsession absent entries sessions events
  | leaves present entries sessions events => exact .leaves present entries sessions events
  | stays registry quiet kept events => exact .stays registry quiet kept events

theorem exists_turn {s s' : Server} {index : Nat} (h : s.stepTask? index = some s') :
    ∃ a next rest started before after, s.tasks[index]? = some (a :: rest) ∧
      s'.tasks = s.tasks.set index (next ++ rest) ++ started ∧
      s.Turn a next rest started before after s' := by
  rw [stepTask?] at h
  split at h
  · next a rest htask =>
    obtain ⟨⟨next, started, t⟩, htake, h⟩ := Option.bind_eq_some_iff.mp h
    obtain rfl := Option.some.inj h
    have htaken := taken_of_take htake
    obtain ⟨htasks, -⟩ := htaken.steady
    obtain ⟨hlt, hget⟩ := List.getElem?_eq_some_iff.mp htask
    have hset : s.tasks.set index (next ++ rest) =
        s.tasks.take index ++ (next ++ rest) :: s.tasks.drop (index + 1) := by
      rw [List.set_eq_take_append_cons_drop, if_pos hlt]
    refine ⟨a, next, rest, started, s.tasks.take index, s.tasks.drop (index + 1), htask, ?_, ?_,
      ?_, t, htaken, rfl⟩
    · rw [htasks]
    · rw [← hget, List.getElem_cons_drop, List.take_append_drop]
    · simp only [htasks]
      rw [hset, List.append_assoc, List.cons_append]
  · simp at h

section

variable {s' : Server} {rest : Task} {before after : List Task} {b : Action}

theorem Turn.effect (h : s.Turn a next rest started before after s') : s.Effect a next s' := by
  obtain ⟨t, htaken, hsame⟩ := h.taken
  rw [hsame]
  exact htaken.effect.withTasks _

theorem Turn.running (h : s.Turn a next rest started before after s') :
    s'.isRunning = s.isRunning := by
  obtain ⟨t, htaken, hsame⟩ := h.taken
  rw [hsame]
  exact htaken.steady.2.1

theorem Turn.mem_pending (h : s.Turn a next rest started before after s') :
    b ∈ s.pending ↔ b ∈ before.flatten ∨ b = a ∨ b ∈ rest ∨ b ∈ after.flatten := by
  simp [pending, h.tasks]

theorem Turn.mem_pending' (h : s.Turn a next rest started before after s') :
    b ∈ s'.pending ↔ b ∈ before.flatten ∨ b ∈ next ∨ b ∈ rest ∨ b ∈ after.flatten ∨
      b ∈ started.flatten := by
  simp [pending, h.tasks']

theorem Turn.keeps (h : s.Turn a next rest started before after s') (hb : b ∈ s.pending)
    (hne : b ≠ a) : b ∈ s'.pending := by
  rw [h.mem_pending] at hb
  rw [h.mem_pending']
  tauto

theorem Turn.adds (h : s.Turn a next rest started before after s') (hb : b ∈ next) :
    b ∈ s'.pending :=
  h.mem_pending'.mpr (.inr (.inl hb))

theorem Turn.mem_of_mem (h : s.Turn a next rest started before after s') (hb : b ∈ s'.pending) :
    b ∈ s.pending ∨ a.leadsTo b ∧ b ∈ next ∨ b ∈ started.flatten := by
  obtain ⟨t, htaken, -⟩ := h.taken
  rw [h.mem_pending'] at hb
  rw [h.mem_pending]
  have hnext := htaken.leadsTo b
  tauto

theorem Turn.count_pending (h : s.Turn a next rest started before after s') (b : Action) :
    s'.pending.count b + [a].count b =
      s.pending.count b + next.count b + started.flatten.count b := by
  simp only [pending, h.tasks, h.tasks', List.flatten_append, List.flatten_cons, List.count_append,
    List.count_cons, List.count_nil]
  omega

theorem Turn.kept (h : s.Turn a next rest started before after s') :
    Session.Kept s.sessions s'.sessions := by
  cases h.effect with
  | enters _ _ _ sessions | leaves _ _ sessions =>
    rw [sessions]
    exact Session.kept_refl _
  | stays _ _ kept => exact kept

end

end CipherLink.Server
