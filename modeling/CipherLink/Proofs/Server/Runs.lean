import CipherLink.Proofs.Server.InStep
import CipherLink.Server.Service

/-!
# Runs of a server

A move is a turn of a task, or it adds tasks and perhaps a client and leaves the
registry and the events alone. What every such move keeps holds throughout a run.
-/

namespace CipherLink

def Action.isOpening : Action → Bool
  | .register _ | .command _ | .takeCommand | .awaitAdmissions | .closeAll => true
  | _ => false

namespace ServerHandler

def queued (message : Message) (delivery : Delivery) : ServerHandler → List Command
  | .relayText => [.broadcast (message.stamped delivery.connection)]
  | .relayExit => [.disconnect delivery.connection]
  | .note _ | .answer _ => []

def called (message : Message) (delivery : Delivery) : ServerHandler → List Command
  | .answer (some key) => [.sendTo { message with key } [delivery.connection]]
  | .answer none => [.disconnect delivery.connection]
  | .note _ | .relayText | .relayExit => []

end ServerHandler

namespace Server

variable {s s' t : Server} {moves : List Move} {added : List Task}

/-- What a move does that is not a turn: it starts tasks, and a client that it admits
is on its way into the registry. -/
structure Grows (s s' : Server) (added : List Task) : Prop where
  registry : s'.registry = s.registry
  events : s'.events = s.events
  tasks : s'.tasks = s.tasks ++ added
  shape : ∀ task ∈ added, Task.Shape task
  silent : ∀ id, .announce id ∉ added.flatten ∧ .announceGone id ∉ added.flatten
  owned : ∀ (h : Handle) (session : Session), s.sessions[h]? = some session →
    ∃ next, s'.sessions[h]? = some next ∧ next.id = session.id
  placed : ∀ (h : Handle) (next : Session), s'.sessions[h]? = some next →
    next.isConnected = true → .register h ∈ added.flatten ∨
      ∃ session, s.sessions[h]? = some session ∧ next.id = session.id ∧
        session.isConnected = true
  stopped : s'.isRunning = false → [.awaitAdmissions, .closeAll] ∈ s'.tasks ∨
    s.isRunning = false ∧ ∀ a ∈ added.flatten, a.isAdmission = false
  opening : ∀ a ∈ added.flatten, a.isOpening = true
  /-- Only a running server begins to stop, and then it runs no more. -/
  closers : added.flatten.count .closeAll + s'.isRunning.toNat ≤ s.isRunning.toNat

theorem Grows.mem_pending (h : s.Grows s' added) {a : Action} :
    a ∈ s'.pending ↔ a ∈ s.pending ∨ a ∈ added.flatten := by
  rw [pending, h.tasks, List.flatten_append, List.mem_append, pending]

theorem Grows.came_eq (h : s.Grows s' added) (id : ClientId) : s'.came id = s.came id := by
  rw [came, came, h.events, pending, h.tasks, List.flatten_append, List.count_append,
    List.count_eq_zero.mpr (h.silent id).1, Nat.add_zero, pending]

theorem Grows.gone_eq (h : s.Grows s' added) (id : ClientId) : s'.gone id = s.gone id := by
  rw [gone, gone, h.events, pending, h.tasks, List.flatten_append, List.count_append,
    List.count_eq_zero.mpr (h.silent id).2, Nat.add_zero, pending]

theorem Grows.closing (h : s.Grows s' added) (hs : s.Closing)
    (hadded : ∀ a ∈ added.flatten, a.isAdmission = false) : s'.Closing := by
  refine ⟨?_, ?_⟩
  · intro a ha
    obtain ha | ha := h.mem_pending.mp ha
    · exact hs.1 a ha
    · exact hadded a ha
  · obtain hall | hclose := hs.2
    · rw [h.tasks]
      exact .inl (List.mem_append_left _ hall)
    · right
      intro id h' next hmem hnext hconnected
      rw [h.registry] at hmem
      obtain hregister | ⟨session, hsession, -, hwas⟩ := h.placed h' next hnext hconnected
      · simpa [Action.isAdmission] using hadded _ hregister
      · exact h.mem_pending.mpr (.inl (hclose id h' session hmem hsession hwas))

theorem Balanced.grows (hs : s.Balanced) (h : s.Grows s' added) : s'.Balanced where
  shape := by
    intro task htask
    rw [h.tasks, List.mem_append] at htask
    exact htask.elim (hs.shape task) (h.shape task)
  owned := by
    intro id h' hmem
    rw [h.registry] at hmem
    obtain ⟨session, hsession, rfl⟩ := hs.owned id h' hmem
    exact h.owned h' session hsession
  placed := by
    intro h' next hnext hconnected
    obtain hregister | ⟨session, hsession, hid, hwas⟩ := h.placed h' next hnext hconnected
    · exact .inl (h.mem_pending.mpr (.inr hregister))
    · rw [hid, h.registry, h.mem_pending, h.mem_pending]
      have hplaced := hs.placed h' session hsession hwas
      tauto
  watched := by
    intro id h' hmem
    rw [h.registry] at hmem
    rw [h.mem_pending, h.tasks]
    simp only [List.mem_append]
    obtain hwatch | hawaits | ⟨task, htask, hremoves⟩ := hs.watched id h' hmem
    · exact .inl (.inl hwatch)
    · exact .inr (.inl (.inl hawaits))
    · exact .inr (.inr ⟨task, .inl htask, hremoves⟩)
  told id := by
    rw [h.came_eq, h.gone_eq, h.registry]
    exact hs.told id
  stopped hstopped := by
    obtain hwait | ⟨hwas, hadded⟩ := h.stopped hstopped
    · exact .inl hwait
    · obtain hwait | hclosing := hs.stopped hwas
      · rw [h.tasks]
        exact .inl (List.mem_append_left _ hwait)
      · exact .inr (h.closing hclosing hadded)

theorem InStep.grows (hs : s.InStep) (h : s.Grows s' added) : s'.InStep where
  toBalanced := hs.toBalanced.grows h
  once id := by
    rw [h.came_eq]
    exact hs.once id

theorem grows_of_kept (registry : s'.registry = s.registry) (events : s'.events = s.events)
    (running : s'.isRunning = s.isRunning) (kept : Session.Kept s.sessions s'.sessions)
    (tasks : s'.tasks = s.tasks ++ added)
    (work : ∀ task ∈ added, task = [.takeCommand] ∨ ∃ c, task = [.command c]) :
    s.Grows s' added where
  registry := registry
  events := events
  tasks := tasks
  shape := by
    intro task htask
    obtain rfl | ⟨c, rfl⟩ := work task htask
    · exact .relaying [] nofun rfl
    · exact .working (by simp [Action.isWork])
  silent := by
    intro id
    simp only [List.mem_flatten, not_exists, not_and]
    refine ⟨?_, ?_⟩ <;>
    · intro task htask
      obtain rfl | ⟨c, rfl⟩ := work task htask <;> simp
  owned h session hsession := kept.exists_id hsession
  placed h next hnext hconnected := by
    obtain ⟨session, hsession, hid, hwas⟩ := kept.exists_old hnext
    exact .inr ⟨session, hsession, hid, hwas hconnected⟩
  stopped hstopped := by
    right
    refine ⟨running ▸ hstopped, ?_⟩
    intro a ha
    obtain ⟨task, htask, ha⟩ := List.mem_flatten.mp ha
    obtain rfl | ⟨c, rfl⟩ := work task htask <;> rw [List.mem_singleton.mp ha] <;> rfl
  opening := by
    intro a ha
    obtain ⟨task, htask, ha⟩ := List.mem_flatten.mp ha
    obtain rfl | ⟨c, rfl⟩ := work task htask <;> rw [List.mem_singleton.mp ha] <;> rfl
  closers := by
    have hnone : .closeAll ∉ added.flatten := by
      intro ha
      obtain ⟨task, htask, ha⟩ := List.mem_flatten.mp ha
      obtain rfl | ⟨c, rfl⟩ := work task htask <;> cases List.mem_singleton.mp ha
    simp only [List.count_eq_zero.mpr hnone, Nat.zero_add, running, Nat.le_refl]

theorem stream_eq (s : Server) (h : Handle) (change : Source → Source) : ∃ sessions,
    s.stream h change = { s with sessions } ∧ Session.Kept s.sessions sessions := by
  rw [stream]
  split
  · next session hsession =>
    refine ⟨_, rfl, Session.kept_set hsession ?_ ?_⟩
    · rfl
    · exact id
  · exact ⟨_, rfl, Session.kept_refl _⟩

theorem handle_eq (s : Server) (message : Message) (delivery : Delivery)
    (handler : ServerHandler) : ∃ notes, (handle message delivery handler s).2 = { s with
      notes
      queue := s.queue ++ handler.queued message delivery
      tasks := s.tasks ++ (handler.called message delivery).map fun c => [.command c] } := by
  rcases handler with ordinal | (_ | key) | _ | _
  · exact ⟨s.notes ++ [⟨ordinal, message, delivery⟩],
      by simp [handle, ServerHandler.queued, ServerHandler.called]⟩
  all_goals exact ⟨s.notes, by simp [handle, spawn, ServerHandler.queued, ServerHandler.called]⟩

def reactions (s : Server) (f : Message → Delivery → ServerHandler → List Command) :
    Session.Heard → List Command
  | .message message delivery => (s.subscriptions.snapshot message.key).flatMap (f message delivery)
  | .nothing | .waiting => []

theorem publish_eq (s : Server) (message : Message) (delivery : Delivery) :
    ∃ notes, s.publish message delivery = { s with
      notes
      queue := s.queue ++ s.reactions ServerHandler.queued (.message message delivery)
      tasks := s.tasks ++ (s.reactions ServerHandler.called (.message message delivery)).map
        fun c => [.command c] } := by
  rw [publish, Subscriptions.runAll_snd, reactions, reactions]
  generalize s.subscriptions.snapshot message.key = handlers
  induction handlers generalizing s with
  | nil => exact ⟨s.notes, by simp⟩
  | cons handler handlers ih =>
    obtain ⟨notes, hhandle⟩ := s.handle_eq message delivery handler
    obtain ⟨notes', hrest⟩ := ih (handle message delivery handler s).2
    refine ⟨notes', ?_⟩
    rw [List.foldl_cons, hrest, hhandle, List.flatMap_cons, List.flatMap_cons, List.map_append,
      List.append_assoc, List.append_assoc]

theorem read_eq {h : Handle} {session : Session} (hsession : s.sessions[h]? = some session) :
    ∃ notes, (s.read h).2 = { s with
      sessions := s.sessions.set h session.read.2
      notes
      queue := s.queue ++ s.reactions ServerHandler.queued session.read.1
      tasks := s.tasks ++ (s.reactions ServerHandler.called session.read.1).map
        fun c => [.command c] } := by
  rw [read, hsession]
  cases hread : session.read with
  | mk heard next =>
    cases heard with
    | waiting | nothing => exact ⟨s.notes, by simp [hread, setSession, reactions]⟩
    | message message delivery =>
      simp only [hread]
      exact (s.setSession h next).publish_eq message delivery

theorem beginStop_grows (s : Server) : ∃ added, s.Grows s.beginStop added := by
  rw [beginStop]
  split
  · next hrunning =>
    refine ⟨[[.awaitAdmissions, .closeAll]], ?_⟩
    exact {
      registry := rfl
      events := rfl
      tasks := rfl
      shape := by
        intro task htask
        rw [List.mem_singleton.mp htask]
        exact .stopping
      silent := by simp
      owned := fun h session hsession => ⟨session, hsession, rfl⟩
      placed := fun h session hsession hconnected => .inr ⟨session, hsession, rfl, hconnected⟩
      stopped := fun _ => .inl (by simp [spawn])
      opening := by simp [Action.isOpening]
      closers := by simp [spawn, hrunning] }
  · exact ⟨[], grows_of_kept rfl rfl rfl (Session.kept_refl _) (List.append_nil _).symm nofun⟩

theorem accept_cases {id : ClientId} {channel : Channel} (h : s.accept id channel = some s') :
    s' = s ∨ s.accepts = true ∧ ∃ session noise, session.id = id ∧ s' = { s with
      sessions := s.sessions ++ [session]
      tasks := s.tasks ++ [[.register s.sessions.length]]
      noise } := by
  rw [accept] at h
  split at h
  · next haccepts =>
    obtain ⟨next, hestablish, rfl⟩ := Option.map_eq_some_iff.mp h
    simp only [establish, Bool.not_true, Bool.false_eq_true, if_false] at hestablish
    split at hestablish
    · simp at hestablish
    · cases hestablish
      exact .inl rfl
    · cases hestablish
      exact .inr ⟨haccepts, _, _, rfl, rfl⟩
  · cases h
    exact .inl rfl

theorem admits_grows {session : Session} {noise : Noise} (haccepts : s.accepts = true) :
    s.Grows { s with
      sessions := s.sessions ++ [session]
      tasks := s.tasks ++ [[.register s.sessions.length]]
      noise } [[.register s.sessions.length]] where
  registry := rfl
  events := rfl
  tasks := rfl
  shape := by
    intro task htask
    rw [List.mem_singleton.mp htask]
    exact .registering _
  silent := by simp
  owned := by
    intro h old hold
    have hlt := (List.getElem?_eq_some_iff.mp hold).1
    refine ⟨old, ?_, rfl⟩
    rw [List.getElem?_append_left hlt, hold]
  placed := by
    intro h next hnext hconnected
    obtain hlt | hge := Nat.lt_or_ge h s.sessions.length
    · rw [List.getElem?_append_left hlt] at hnext
      exact .inr ⟨next, hnext, rfl, hconnected⟩
    · left
      have hlt := (List.getElem?_eq_some_iff.mp hnext).1
      rw [List.length_append, List.length_singleton] at hlt
      simp [Nat.le_antisymm (Nat.le_of_lt_succ hlt) hge]
  stopped := by
    -- A stop that still waits for admissions is there to find this one.
    intro hstopped
    left
    simp only [accepts, Bool.or_eq_true, List.contains_iff_mem] at haccepts
    obtain hrunning | hwait := haccepts
    · simp [hrunning] at hstopped
    · exact List.mem_append_left _ hwait
  opening := by simp [Action.isOpening]
  closers := by simp

theorem move_cases {m : Move} (h : s.move m = some s') :
    (∃ index a next rest started before after, m = .task index ∧
      s.tasks[index]? = some (a :: rest) ∧ s.Turn a next rest started before after s') ∨
    ∃ added, s.Grows s' added := by
  have hkept := Session.kept_refl s.sessions
  cases m with
  | accept id channel =>
    right
    obtain rfl | ⟨haccepts, session, noise, -, rfl⟩ := accept_cases h
    · exact ⟨[], grows_of_kept rfl rfl rfl hkept (List.append_nil _).symm nofun⟩
    · exact ⟨_, admits_grows haccepts⟩
  | stream h' change =>
    obtain ⟨sessions, heq, hsessions⟩ := s.stream_eq h' change
    rw [move, heq] at h
    cases h
    exact .inr ⟨[], grows_of_kept rfl rfl rfl hsessions (List.append_nil _).symm nofun⟩
  | read h' =>
    right
    rw [move, Option.some.injEq] at h
    cases hsession : s.sessions[h']? with
    | none =>
      rw [read, hsession] at h
      cases h
      exact ⟨[], grows_of_kept rfl rfl rfl hkept (List.append_nil _).symm nofun⟩
    | some session =>
      obtain ⟨notes, heq⟩ := read_eq hsession
      rw [← h, heq]
      obtain ⟨hid, hconnected⟩ := session.read_keeps
      refine ⟨_, grows_of_kept rfl rfl rfl (Session.kept_set hsession hid hconnected) rfl ?_⟩
      intro task htask
      obtain ⟨c, -, rfl⟩ := List.mem_map.mp htask
      exact .inr ⟨c, rfl⟩
  | close h' =>
    obtain ⟨sessions, heq, hsessions, -⟩ := s.closeSession_eq h'
    rw [move, heq] at h
    cases h
    exact .inr ⟨[], grows_of_kept rfl rfl rfl hsessions (List.append_nil _).symm nofun⟩
  | call c =>
    cases h
    exact .inr ⟨_, grows_of_kept rfl rfl rfl hkept rfl (by simp)⟩
  | subscribe change =>
    cases h
    exact .inr ⟨[], grows_of_kept rfl rfl rfl hkept (List.append_nil _).symm nofun⟩
  | relay =>
    cases h
    exact .inr ⟨_, grows_of_kept rfl rfl rfl hkept rfl (by simp)⟩
  | stop =>
    cases h
    exact .inr s.beginStop_grows
  | task index =>
    left
    obtain ⟨a, next, rest, started, before, after, htask, -, hturn⟩ := exists_turn h
    exact ⟨index, a, next, rest, started, before, after, rfl, htask, hturn⟩

theorem Balanced.move {m : Move} (hs : s.Balanced) (h : s.move m = some s') :
    s'.Balanced := by
  obtain ⟨_, _, _, _, _, _, _, -, -, hturn⟩ | ⟨added, hgrows⟩ := move_cases h
  · exact hs.turn hturn
  · exact hs.grows hgrows

theorem InStep.move {m : Move} (hs : s.InStep) (hfresh : s.repeats m = false)
    (h : s.move m = some s') : s'.InStep := by
  obtain ⟨index, a, next, rest, started, before, after, rfl, htask, hturn⟩ | ⟨added, hgrows⟩ :=
    move_cases h
  · refine hs.turn hturn ?_
    rintro h' session rfl hsession
    simp only [repeats, htask, hsession] at hfresh
    by_contra hgone
    have hdeparted := (s.departed_iff session.id).mpr (Nat.pos_of_ne_zero hgone)
    simp [hdeparted] at hfresh
  · exact hs.grows hgrows

theorem follow_append (s : Server) (before after : List Move) :
    s.follow (before ++ after) = (s.follow before).bind (follow · after) := by
  induction before generalizing s with
  | nil => rfl
  | cons m before ih =>
    simp only [List.cons_append, follow, Option.bind_assoc]
    exact congrArg _ (funext fun next => ih next)

theorem isFresh_append {before after : List Move} (h : s.follow before = some t) :
    s.isFresh (before ++ after) = (s.isFresh before && t.isFresh after) := by
  induction before generalizing s with
  | nil =>
    cases h
    rfl
  | cons m before ih =>
    obtain ⟨next, hmove, hrest⟩ := Option.bind_eq_some_iff.mp h
    simp only [List.cons_append, isFresh, hmove, ih hrest, Bool.and_assoc]

theorem follow_keeps {P : Server → Prop} (hP : P s)
    (hkeeps : ∀ (s s' : Server), ∀ m ∈ moves, P s → s.move m = some s' → P s')
    (h : s.follow moves = some s') : P s' := by
  induction moves generalizing s with
  | nil =>
    cases h
    exact hP
  | cons m moves ih =>
    obtain ⟨next, hmove, hrest⟩ := Option.bind_eq_some_iff.mp h
    refine ih (hkeeps s next m List.mem_cons_self hP hmove) ?_ hrest
    intro s s' m hm
    exact hkeeps s s' m (List.mem_cons_of_mem _ hm)

theorem InStep.follow (hs : s.InStep) (hfresh : s.isFresh moves = true)
    (h : s.follow moves = some s') : s'.InStep := by
  induction moves generalizing s with
  | nil =>
    cases h
    exact hs
  | cons m moves ih =>
    obtain ⟨next, hmove, hrest⟩ := Option.bind_eq_some_iff.mp h
    simp only [isFresh, hmove, Bool.and_eq_true, Bool.not_eq_true'] at hfresh
    exact ih (hs.move hfresh.1 hmove) hfresh.2 hrest

theorem exists_follow_runTasks (s : Server) (limit : Nat) :
    ∃ moves, s.follow moves = some (s.runTasks limit) := by
  induction limit generalizing s with
  | zero => exact ⟨[], rfl⟩
  | succ limit ih =>
    rw [runTasks]
    split
    · next next hstep =>
      obtain ⟨index, -, hindex⟩ := List.exists_of_findSome?_eq_some hstep
      obtain ⟨moves, hmoves⟩ := ih next
      refine ⟨.task index :: moves, ?_⟩
      rw [follow, move, hindex, Option.bind_some, hmoves]
    · exact ⟨[], rfl⟩

theorem exists_follow_stop (s : Server) : ∃ moves, s.follow (.stop :: moves) = some s.stop := by
  rw [stop]
  split
  · next hrunning =>
    obtain ⟨moves, hmoves⟩ := exists_follow_runTasks s.beginStop s.beginStop.taskLimit
    rw [beginStop, if_pos hrunning] at hmoves
    refine ⟨moves, ?_⟩
    rw [follow, move, beginStop, if_pos hrunning]
    exact hmoves
  · next hrunning =>
    refine ⟨[], ?_⟩
    rw [follow, move, beginStop, if_neg hrunning]
    rfl

theorem exists_follow_carryOut (s : Server) (c : Command) :
    ∃ moves, s.follow (.call c :: moves) = some (s.carryOut c).2 :=
  exists_follow_runTasks (s.spawn [.command c]) _

end Server

end CipherLink
