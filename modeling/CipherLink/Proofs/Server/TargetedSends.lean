import CipherLink.Proofs.ClientMaps
import CipherLink.Proofs.Registrations
import CipherLink.Proofs.Server.Relaying
import CipherLink.Server.Moves

/-!
# Messages to some clients

A call that sends a message to some clients is a task, which selects the handles at its first
turn and then sends to one of them at each turn. However the other tasks take turns in between,
nothing is added to what it has to send and it never has to wait. On a server at rest all turns
are its own, so the messages that are delivered meanwhile are those that it has sent.
-/

namespace CipherLink

namespace Server

variable {s s' t next : Server} {index : Nat} {moves : List Move} {message : Message} {h : Handle}
  {handles : List Handle} {task : Task}

theorem stepTask?_send {rest : Task} (htask : s.tasks[index]? = some (.send message h :: rest)) :
    s.stepTask? index =
      some { s.sendOne message h with tasks := (s.sendOne message h).tasks.set index rest } := by
  rw [stepTask?, htask]
  simp [take]

theorem move_other {m : Move} (htask : s.tasks[index]? = some task) (hmove : s.move m = some next)
    (hother : ∀ i, m = .task i → i ≠ index) :
    s.attempt? index m = none ∧ next.tasks[index]? = some task := by
  cases m with
  | task i =>
    have hne := hother i rfl
    obtain ⟨a, following, rest, started, _, _, -, htasks, -⟩ := exists_turn hmove
    refine ⟨if_neg hne, ?_⟩
    rw [htasks]
    exact getElem?_append_of_some ((List.getElem?_set_ne hne).trans htask) _
  | _ =>
    refine ⟨rfl, ?_⟩
    obtain ⟨_, _, _, _, _, _, _, hturn, -⟩ | ⟨added, hgrows⟩ := move_cases hmove
    · cases hturn
    · rw [hgrows.tasks]
      exact getElem?_append_of_some htask _

theorem move_turn (htask : s.tasks[index]? = some ((h :: handles).map (.send message)))
    (hmove : s.move (.task index) = some next) :
    s.attempt? index (.task index) = some ⟨message, h, s.delivers message h⟩ ∧
      next.tasks[index]? = some (handles.map (.send message)) := by
  rw [List.map_cons] at htask
  obtain ⟨sessions, delivered, noise, hsend, -⟩ := s.sendOne_eq message h
  rw [move, stepTask?_send htask, Option.some.injEq] at hmove
  refine ⟨by rw [attempt?, if_pos rfl, htask], ?_⟩
  rw [← hmove, hsend]
  exact getElem?_set_of_some htask _

theorem move_done (htask : s.tasks[index]? = some []) : s.move (.task index) = none := by
  rw [move, stepTask?, htask]

theorem attempts_cons {m : Move} (hmove : s.move m = some next) :
    s.attempts index (m :: moves) = (s.attempt? index m).toList ++ next.attempts index moves := by
  rw [attempts, hmove]

theorem attempts_of_sends (htask : s.tasks[index]? = some (handles.map (.send message)))
    (hrun : s.follow moves = some s') : ∃ left,
    handles = (s.attempts index moves).map Attempt.handle ++ left ∧
      (∀ a ∈ s.attempts index moves, a.message = message) ∧
      s'.tasks[index]? = some (left.map (.send message)) := by
  -- By induction on the moves: what a task has sent and what it has still to send make up what it
  -- had to send.
  induction moves generalizing s handles with
  | nil =>
    cases hrun
    exact ⟨handles, rfl, List.forall_mem_nil _, htask⟩
  | cons m moves ih =>
    obtain ⟨next, hmove, hrest⟩ := Option.bind_eq_some_iff.mp hrun
    rw [attempts_cons hmove]
    by_cases hturn : m = .task index
    · subst hturn
      cases handles with
      | nil => simp [move_done htask] at hmove
      | cons h handles =>
        obtain ⟨hattempt, htask'⟩ := move_turn htask hmove
        obtain ⟨left, hleft, hmessages, hend⟩ := ih htask' hrest
        rw [hattempt]
        exact ⟨left, congrArg (List.cons h) hleft, List.forall_mem_cons.mpr ⟨rfl, hmessages⟩, hend⟩
    · obtain ⟨hattempt, htask'⟩ := move_other htask hmove fun i hi heq => hturn (heq ▸ hi)
      rw [hattempt]
      exact ih htask' hrest

/-- How a task has sent a message to some clients: to those that were selected, in their order,
so far. It has the others still to do, and does not have to wait. -/
structure SendsTo (s' : Server) (index : Nat) (message : Message) (handles : List Handle)
    (sent : List Attempt) : Prop where
  sent_eq : sent.map Attempt.handle = handles.take sent.length
  message_eq : ∀ a ∈ sent, a.message = message
  left_eq : s'.tasks[index]? = some ((handles.drop sent.length).map (.send message))
  goes_on : sent.length < handles.length → ∃ next, s'.stepTask? index = some next

theorem SendsTo.length_le {sent : List Attempt} (h : SendsTo s' index message handles sent) :
    sent.length ≤ handles.length := by
  have hlength := congrArg List.length h.sent_eq
  rw [List.length_map, List.length_take] at hlength
  omega

theorem SendsTo.sent_eq_of_done {sent : List Attempt} (h : SendsTo s' index message handles sent)
    (hdone : s'.tasks[index]? = some []) : sent.map Attempt.handle = handles := by
  have hleft := h.left_eq
  rw [hdone, Option.some.injEq, eq_comm, List.map_eq_nil_iff, List.drop_eq_nil_iff] at hleft
  rw [h.sent_eq, List.take_of_length_le hleft]

theorem SendsTo.countP_le {targets : List ClientId} {sent : List Attempt}
    (h : SendsTo s' index message (s.registry.select targets) sent) :
    sent.countP Attempt.isDelivered ≤ (s.registry.reached targets).card := by
  rw [← s.registry.length_select]
  exact Nat.le_trans List.countP_le_length h.length_le

def selected (s : Server) (message : Message) (targets : List ClientId) : Server :=
  s.spawn ((s.registry.select targets).map (.send message))

theorem call_turn (s : Server) (message : Message) (targets : List ClientId) :
    (s.spawn [.command (.sendTo message targets)]).move (.task s.tasks.length) =
      some (s.selected message targets) := by
  simp [move, stepTask?, take, selected, spawn]

theorem follow_call {targets : List ClientId} :
    s.follow (.call (.sendTo message targets) :: .task s.tasks.length :: moves) =
      (s.selected message targets).follow moves := by
  rw [follow, move, Option.bind_some, follow, call_turn, Option.bind_some]

theorem attempts_call {targets : List ClientId} :
    s.attempts s.tasks.length (.call (.sendTo message targets) :: .task s.tasks.length :: moves) =
      (s.selected message targets).attempts s.tasks.length moves := by
  have hnone : (s.spawn [.command (.sendTo message targets)]).attempt? s.tasks.length
      (.task s.tasks.length) = none := by
    simp [attempt?, spawn]
  have hcall : s.move (.call (.sendTo message targets)) =
      some (s.spawn [.command (.sendTo message targets)]) := rfl
  rw [attempts_cons hcall, attempts_cons (s.call_turn message targets), hnone]
  rfl

theorem sendsTo_of_call {targets : List ClientId}
    (hrun : s.follow (.call (.sendTo message targets) :: .task s.tasks.length :: moves) =
      some s') :
    SendsTo s' s.tasks.length message (s.registry.select targets)
      (s.attempts s.tasks.length
        (.call (.sendTo message targets) :: .task s.tasks.length :: moves)) := by
  rw [attempts_call]
  rw [follow_call] at hrun
  have htask : (s.selected message targets).tasks[s.tasks.length]? =
      some ((s.registry.select targets).map (.send message)) := List.getElem?_concat_length
  obtain ⟨left, hleft, hmessages, hend⟩ := attempts_of_sends htask hrun
  generalize (s.selected message targets).attempts s.tasks.length moves = sent at hleft hmessages
  have hsent : sent.map Attempt.handle = (s.registry.select targets).take sent.length := by
    rw [hleft, List.take_left' (List.length_map _)]
  have hleft : left = (s.registry.select targets).drop sent.length := by
    rw [hleft, List.drop_left' (List.length_map _)]
  refine ⟨hsent, hmessages, hleft ▸ hend, fun hmore => ?_⟩
  cases left with
  | nil => exact absurd (List.drop_eq_nil_iff.mp hleft.symm) (Nat.not_le.mpr hmore)
  | cons h left => exact ⟨_, stepTask?_send hend⟩

/-- A task that can only go on when a client closes or a command comes. -/
def Waits (s : Server) (task : Task) : Prop :=
  task = [] ∨ (∃ h id session, task = [.awaitClosed h, .check id] ∧
    s.sessions[h]? = some session ∧ session.isConnected = true) ∨
  (task = [.takeCommand] ∧ s.queue = [])

theorem Waits.stepTask? (h : s.Waits task) (htask : s.tasks[index]? = some task) :
    s.stepTask? index = none := by
  rw [Server.stepTask?, htask]
  obtain rfl | ⟨h', id, session, rfl, hsession, hconnected⟩ | ⟨rfl, hqueue⟩ := h
  · rfl
  · simp [take, hsession, hconnected]
  · simp [take, hqueue]

theorem Waits.sendOne (hwaits : s.Waits task) (message : Message) (h : Handle)
    (tasks : List Task) : Waits { s.sendOne message h with tasks } task := by
  obtain ⟨sessions, delivered, noise, hsend, hkept⟩ := s.sendOne_eq message h
  obtain rfl | ⟨h', id, session, rfl, hsession, hconnected⟩ | ⟨rfl, hqueue⟩ := hwaits
  · exact .inl rfl
  · obtain ⟨next, hnext, -⟩ := hkept.exists_id hsession
    refine .inr (.inl ⟨h', id, next, rfl, by rw [hsend]; exact hnext, ?_⟩)
    have hafter : (s.sendOne message h).sessions[h']? = some next := by rw [hsend]; exact hnext
    by_cases hh : h = h'
    · subst hh
      obtain ⟨result, hresult⟩ | ⟨-, rfl⟩ := sendOne_session hsession hafter
      · rw [(Session.send_eq_some hresult).2, hconnected]
      · exact hconnected
    · rw [sendOne_other hh, hsession, Option.some.injEq] at hafter
      rw [← hafter, hconnected]
  · exact .inr (.inr ⟨rfl, by rw [hsend]; exact hqueue⟩)

theorem sendOne_delivered (s : Server) (message : Message) (h : Handle) :
    (s.sendOne message h).delivered = s.delivered + (s.delivers message h).toNat := by
  rw [sendOne, delivers]
  cases s.sessions[h]? with
  | none => rfl
  | some session =>
    dsimp only
    cases session.send message s.noise with
    | none => rfl
    | some step =>
      obtain ⟨outcome, next⟩ := step
      cases outcome <;> rfl

theorem runTasks_last {others : List Task} (hwaits : ∀ task ∈ others, s.Waits task)
    (htasks : s.tasks = others ++ [task]) (limit : Nat) :
    s.runTasks (limit + 1) = (s.stepTask? others.length).elim s (·.runTasks limit) := by
  have hothers : (List.range others.length).findSome? s.stepTask? = none := by
    rw [List.findSome?_eq_none_iff]
    intro i hi
    have hlt := List.mem_range.mp hi
    refine (hwaits _ (List.getElem_mem hlt)).stepTask? ?_
    rw [htasks, List.getElem?_append_left hlt, List.getElem?_eq_getElem hlt]
  have hlast : (List.range s.tasks.length).findSome? s.stepTask? =
      s.stepTask? others.length := by
    rw [htasks, List.length_append, List.length_singleton, List.range_succ, List.findSome?_append,
      hothers]
    simp
  rw [runTasks, hlast]
  cases s.stepTask? others.length <;> rfl

theorem exists_turn_last {others : List Task}
    (htasks : s.tasks = others ++ [(h :: handles).map (.send message)]) :
    ∃ t, s.move (.task others.length) = some t ∧
      t.tasks = others ++ [handles.map (.send message)] ∧
      t.delivered = s.delivered + (s.delivers message h).toNat ∧
      ∀ task, s.Waits task → t.Waits task := by
  have htask : s.tasks[others.length]? =
      some (.send message h :: handles.map (.send message)) := by
    rw [htasks]
    exact List.getElem?_concat_length
  obtain ⟨sessions, delivered, noise, hsend, -⟩ := s.sendOne_eq message h
  refine ⟨_, stepTask?_send htask, ?_, s.sendOne_delivered message h,
    fun task hwaits => hwaits.sendOne message h _⟩
  rw [hsend]
  exact htasks ▸ set_concat_length others _ _

theorem exists_turns {others : List Task} {limit : Nat} (hwaits : ∀ task ∈ others, s.Waits task)
    (htasks : s.tasks = others ++ [handles.map (.send message)]) (hlimit : handles.length ≤ limit) :
    ∃ moves, s.follow moves = some (s.runTasks limit) ∧
      (s.runTasks limit).tasks = others ++ [[]] ∧
      (s.runTasks limit).delivered =
        s.delivered + (s.attempts others.length moves).countP Attempt.isDelivered := by
  have htask : s.tasks[others.length]? = some (handles.map (.send message)) := by
    rw [htasks]
    exact List.getElem?_concat_length
  induction handles generalizing s limit with
  | nil =>
    have hend : s.runTasks limit = s := by
      cases limit with
      | zero => rfl
      | succ limit =>
        rw [runTasks_last hwaits htasks, Waits.stepTask? (.inl rfl) htask]
        rfl
    rw [hend]
    exact ⟨[], rfl, htasks, rfl⟩
  | cons h handles ih =>
    cases limit with
    | zero => exact absurd hlimit (Nat.not_succ_le_zero _)
    | succ limit =>
      obtain ⟨t, hmove, htasks', hdelivered, hwaits'⟩ := exists_turn_last htasks
      obtain ⟨moves, hrun, hend, hcount⟩ := ih (fun task hmem => hwaits' task (hwaits task hmem))
        htasks' (Nat.le_of_succ_le_succ hlimit) (htasks' ▸ List.getElem?_concat_length)
      have hfirst : s.runTasks (limit + 1) = t.runTasks limit := by
        rw [runTasks_last hwaits htasks, show s.stepTask? others.length = some t from hmove]
        rfl
      rw [hfirst]
      refine ⟨.task others.length :: moves, ?_, hend, ?_⟩
      · rw [follow, hmove, Option.bind_some, hrun]
      · rw [hcount, hdelivered, attempts_cons hmove, (move_turn htask hmove).1, Option.toList_some,
          List.countP_append, List.countP_singleton, Nat.add_assoc]
        cases s.delivers message h <;> rfl

theorem Balanced.length_entries_le (hs : s.Balanced) :
    s.registry.entries.length ≤ s.sessions.length := by
  have hrange : s.registry.handles ⊆ List.range s.sessions.length := by
    intro h hmem
    obtain ⟨⟨id, h⟩, hentry, rfl⟩ := List.mem_map.mp hmem
    obtain ⟨session, hsession, -⟩ := hs.owned id h hentry
    exact List.mem_range.mpr (List.getElem?_eq_some_iff.mp hsession).1
  have hle := (List.subperm_of_subset (handles_nodup hs.owned) hrange).length_le
  rwa [Registry.handles, List.length_map, List.length_range] at hle

theorem exists_follow_sendTo (hs : s.Balanced) (hrest : s.AtRest) (message : Message)
    (targets : List ClientId) : ∃ moves,
    s.follow (.call (.sendTo message targets) :: .task s.tasks.length :: moves) =
      some (s.sendTo message targets).2 ∧
    (s.sendTo message targets).2.tasks[s.tasks.length]? = some [] ∧
    (s.sendTo message targets).1 = (s.attempts s.tasks.length
      (.call (.sendTo message targets) :: .task s.tasks.length :: moves)).countP
        Attempt.isDelivered := by
  have hwaits : ∀ task ∈ s.tasks, s.Waits task := fun task hmem => hrest.task hs.shape hmem
  have hlength : (s.registry.select targets).length ≤ s.sessions.length :=
    Nat.le_trans (s.registry.length_select_le targets) hs.length_entries_le
  obtain ⟨limit, hlimit, hle⟩ :
      ∃ limit, (s.spawn [.command (.sendTo message targets)]).taskLimit = limit + 1 ∧
        (s.registry.select targets).length ≤ limit := by
    have htasks : 1 ≤ (s.spawn [.command (.sendTo message targets)]).tasks.flatten.length := by
      simp [spawn]
    have hsessions : (s.spawn [.command (.sendTo message targets)]).sessions = s.sessions := rfl
    have hlarge : s.sessions.length + 1 ≤
        (s.spawn [.command (.sendTo message targets)]).taskLimit := by
      rw [taskLimit, hsessions]
      refine Nat.le_trans ?_ (Nat.mul_le_mul_right _ (Nat.le_add_right_of_le htasks))
      omega
    exact ⟨_, (Nat.sub_add_cancel (Nat.le_of_add_left_le hlarge)).symm, by omega⟩
  have hfirst := runTasks_last (s := s.spawn [.command (.sendTo message targets)]) hwaits rfl limit
  have hcall := s.call_turn message targets
  rw [move] at hcall
  rw [hcall] at hfirst
  obtain ⟨moves, hrun, hend, hcount⟩ :=
    exists_turns (s := s.selected message targets) hwaits rfl hle
  have hsendTo : (s.sendTo message targets).2 = (s.selected message targets).runTasks limit := by
    rw [sendTo, carryOut, runAllTasks, hlimit]
    exact hfirst
  refine ⟨moves, ?_, ?_, ?_⟩
  · rw [follow_call, hrun, hsendTo]
  · rw [hsendTo, hend]
    exact List.getElem?_concat_length
  · have hdelivered : (s.sendTo message targets).1 =
        (s.sendTo message targets).2.delivered - s.delivered := rfl
    rw [hdelivered, hsendTo, hcount, attempts_call]
    exact Nat.add_sub_cancel_left s.delivered _

end Server

/-- A registry answers any calls as a finite map does in which the first registration of an id
stands until it is unregistered, and shows the same of itself: a registration that is refused
changes nothing, and what was registered is handed out once, or still there. For any targets it
selects the handles of those that are registered, each once and in the order in which they first
occur. A call that sends to targets makes one attempt for each handle that is selected then, in
any run, and does not wait until it is done; on a server at rest it is done when the call returns,
and counts its attempts that were delivered, which are no more than the targets it reaches. -/
theorem registry_reaches_targets_once (α : Type) :
    (∀ calls : List (Registry.Call α),
      Registry.empty.answers calls = ClientMap.answers ∅ calls ∧
      (Registry.empty.after calls).Shows (ClientMap.after ∅ calls) ∧
      (∀ id a, (Registry.empty.after calls).get? id = some a ↔ Registry.Stands calls id a) ∧
      ∀ id, (calls.zip (Registry.empty.answers calls)).filterMap (Registry.accepted? id) =
        (calls.zip (Registry.empty.answers calls)).filterMap (Registry.returned? id) ++
          ((Registry.empty.after calls).get? id).toList) ∧
    (∀ (r : Registry α) id a, (r.register id a).1 = false → (r.register id a).2 = r) ∧
    (∀ (r : Registry α) targets, (∃ picked, r.Picks targets picked) ∧
      (r.select targets).length = (r.reached targets).card) ∧
    (∀ (s s' : Server) message targets moves,
      let run : List Move := .call (.sendTo message targets) :: .task s.tasks.length :: moves
      s.follow run = some s' →
        Server.SendsTo s' s.tasks.length message (s.registry.select targets)
          (s.attempts s.tasks.length run) ∧
        (s.attempts s.tasks.length run).countP Attempt.isDelivered ≤
          (s.registry.reached targets).card) ∧
    ∀ (start s : Server) before message targets, start.Idle → start.follow before = some s →
      s.AtRest → ∃ moves,
        let run : List Move := .call (.sendTo message targets) :: .task s.tasks.length :: moves
        s.follow run = some (s.sendTo message targets).2 ∧
        (s.attempts s.tasks.length run).map Attempt.handle = s.registry.select targets ∧
        (s.sendTo message targets).1 =
          (s.attempts s.tasks.length run).countP Attempt.isDelivered ∧
        (s.sendTo message targets).1 ≤ (s.registry.reached targets).card := by
  refine ⟨?_, ?_, fun r targets => ⟨r.exists_picked targets, r.length_select targets⟩, ?_, ?_⟩
  · intro calls
    have hafter := Registry.empty.after_eq calls
    have hhanded := Registry.empty.accepted_eq_returned calls
    rw [Registry.toFinmap_empty] at hafter
    refine ⟨?_, hafter ▸ Registry.shows_toFinmap _, fun id a => Registry.get?_after_iff calls,
      fun id => hhanded id⟩
    rw [Registry.answers_eq, Registry.toFinmap_empty]
  · intro r id a hrefused
    rw [Registry.register_fst, Bool.not_eq_false'] at hrefused
    rw [Registry.register_of_contains hrefused]
  · intro s s' message targets moves run hrun
    have hsends := Server.sendsTo_of_call hrun
    exact ⟨hsends, hsends.countP_le⟩
  · intro start s before message targets hidle hbefore hrest
    have hbalanced : s.Balanced :=
      Server.follow_keeps hidle.balanced (fun _ _ _ _ hs hmove => hs.move hmove) hbefore
    obtain ⟨moves, hrun, hdone, hcount⟩ :=
      Server.exists_follow_sendTo hbalanced hrest message targets
    have hsends := Server.sendsTo_of_call hrun
    exact ⟨moves, hrun, hsends.sent_eq_of_done hdone, hcount, hcount ▸ hsends.countP_le⟩

/-- A second handle for an id is refused and the first one stands; and of targets that name an
unknown client and another one twice, two are tried, one of which has no room for the message. -/
theorem registry_reaches_targets_once_of_four :
    let one : ClientId := .ofNat 1
    let two : ClientId := .ofNat 2
    let targets : List ClientId := [two, .ofNat 3, one, two]
    let alone : Registry Handle := Registry.empty.after [.register one 5]
    let link : Link := ⟨⟨KeyExchangeAlgorithm.identity.descriptor,
      SymmetricAlgorithm.identity.descriptor, 16⟩, ⟨.identity, .zero⟩, ⟨.identity, .zero⟩⟩
    let channel (limit : Nat) : Channel := .ofLink link limit .live
    let start : Server := { Server.new ⟨"", .unencrypted, .standard, 16⟩ .empty (fun _ => 0) with
      isRunning := true }
    let before : List Move := [.accept one (channel 128), .accept two (channel 64)] ++
      [0, 0, 0, 1, 1, 1].map Move.task
    let message : Message := ⟨0, none, .replicate 60 5⟩
    (alone.register one 6).1 = false ∧ (alone.register one 6).2 = alone ∧
    Registry.Stands [.register one 5, .register one 6] one 5 ∧
    start.Idle ∧ ∃ s sent, start.follow before = some s ∧ s.AtRest ∧
      Server.SendsTo (s.sendTo message targets).2 s.tasks.length message [1, 0] sent ∧
      sent.map Attempt.handle = [1, 0] ∧ (s.sendTo message targets).1 = 1 ∧
      sent.countP Attempt.isDelivered = 1 ∧ (s.registry.reached targets).card = 2 := by
  intro one two targets alone link channel start before message
  obtain ⟨hcalls, hrefused, hselect, hruns, hcalled⟩ := registry_reaches_targets_once Handle
  have htaken : (alone.register one 6).1 = false := by decide +kernel
  have hstands := ((hcalls [.register one 5, .register one 6]).2.2.1 one 5).mp (by decide +kernel)
  have hidle : start.Idle := ⟨rfl, rfl, rfl, rfl⟩
  have hrun : (start.follow before).map (fun s => (decide s.AtRest, s.registry.select targets,
      (s.sendTo message targets).1)) = some (true, [1, 0], 1) := by
    decide +kernel
  obtain ⟨s, hfollow, hs⟩ := Option.map_eq_some_iff.mp hrun
  simp only [Prod.mk.injEq, decide_eq_true_eq] at hs
  obtain ⟨hrest, hpicked, hone⟩ := hs
  obtain ⟨moves, hmoves, hsent, hcount, -⟩ :=
    hcalled start s before message targets hidle hfollow hrest
  have hsends := (hruns s _ message targets moves hmoves).1
  rw [hpicked] at hsends hsent
  refine ⟨htaken, hrefused alone one 6 htaken, hstands, hidle, s, _, hfollow, hrest, hsends, hsent,
    hone, hcount.symm.trans hone, ?_⟩
  rw [← (hselect _ _).2, hpicked]
  rfl

end CipherLink
