import CipherLink.Proofs.Exits

/-!
# Comings and goings

A client is registered first, and its coming is told by the next action of its admission.
In between everybody can disconnect it, and its going may be told first. Unless that
happens, a client that is told to be gone was told to be there before.
-/

namespace CipherLink

def Action.leaver? : Action → Option ClientId
  | .check id | .remove id | .announceGone id => some id
  | _ => none

theorem Action.leaver?_of_isOpening {a : Action} (h : a.isOpening = true) :
    a.leaver? = none := by
  cases a with
  | check id | remove id | announceGone id => cases h
  | _ => rfl

def Action.events : Action → List ServerEvent
  | .announce id => [.connected id]
  | .announceGone id => [.disconnected id]
  | _ => []

/-- Whether every client whose going is told was told to have come before. -/
def InOrder (events : List ServerEvent) : Prop :=
  ∀ before after id, events = before ++ .disconnected id :: after → .connected id ∈ before

theorem InOrder.concat {events : List ServerEvent} {event : ServerEvent} (h : InOrder events)
    (hnew : ∀ id, event = .disconnected id → .connected id ∈ events) :
    InOrder (events ++ [event]) := by
  intro before after id heq
  obtain ⟨rest, hevents⟩ | ⟨rfl, hlast⟩ := split_concat heq
  · exact h before rest id hevents
  · exact hnew id hlast.symm

theorem Task.Shape.of_admission {task : Task} (h : Task.Shape task) {b : Action} (hb : b ∈ task)
    (hadmission : b.isAdmission = true) : (∃ handle, task = [.register handle]) ∨
      (∃ id handle, task = [.announce id, .watch handle]) ∨ ∃ handle, task = [.watch handle] := by
  obtain ⟨head, rest, rfl, hhead⟩ := h.head_isAdmission hb hadmission
  cases h with
  | registering handle => exact .inl ⟨handle, rfl⟩
  | announcing id handle => exact .inr (.inl ⟨id, handle, rfl⟩)
  | arriving handle => exact .inr (.inr ⟨handle, rfl⟩)
  | watching handle id | stopping | closing => cases hhead
  | working hwork =>
    rw [Action.isAdmission_of_isWork (hwork head List.mem_cons_self)] at hhead
    cases hhead
  | relaying body hwork heq =>
    cases body with
    | nil =>
      obtain ⟨rfl, -⟩ := List.cons.inj heq
      cases hhead
    | cons first body =>
      obtain ⟨rfl, -⟩ := List.cons.inj heq
      rw [Action.isAdmission_of_isWork (hwork head List.mem_cons_self)] at hhead
      cases hhead

theorem Task.Shape.of_closeAll {rest : Task} (h : Task.Shape (.closeAll :: rest)) : rest = [] := by
  cases h with
  | closing => rfl
  | working hwork => cases hwork _ List.mem_cons_self
  | relaying body hwork heq =>
    cases body with
    | nil => cases heq
    | cons first body =>
      obtain ⟨rfl, -⟩ := List.cons.inj heq
      cases hwork _ List.mem_cons_self

namespace Server

/-- Whether a move carries out the disconnection of a client whose coming has still to be
told. -/
def hurries (s : Server) : Move → Bool
  | .task index =>
    match s.tasks[index]? with
    | some (.command (.disconnect id) :: _) => s.tasks.flatten.contains (.announce id)
    | _ => false
  | _ => false

def isPatient (s : Server) : List Move → Bool
  | [] => true
  | m :: moves =>
    !s.hurries m &&
      match s.move m with
      | some next => next.isPatient moves
      | none => true

/-- What holds between two steps of a server that does not hurry: whoever is on the way out
was told to have come. -/
structure Announced (s : Server) : Prop where
  announcing : ∀ (id : ClientId) (h : Handle), [.announce id, .watch h] ∈ s.tasks →
    ∃ session, s.sessions[h]? = some session ∧ session.id = id
  arriving : ∀ h : Handle, [.watch h] ∈ s.tasks →
    ∃ session, s.sessions[h]? = some session ∧ .connected session.id ∈ s.events
  leaving : ∀ a ∈ s.pending, ∀ id, a.leaver? = some id → .connected id ∈ s.events
  inOrder : InOrder s.events
  /-- At most one stop has still to close all, and none as long as the server runs. -/
  closers : s.pending.count .closeAll + s.isRunning.toNat ≤ 1

variable {s s' t : Server} {moves : List Move} {id : ClientId}

theorem Idle.announced (hs : s.Idle) : s.Announced where
  announcing := by simp [hs.tasks]
  arriving := by simp [hs.tasks]
  leaving := by simp [pending, hs.tasks]
  inOrder := by simp [InOrder, hs.events]
  closers := by
    rw [pending, hs.tasks, List.flatten_nil, List.count_nil, Nat.zero_add]
    exact Bool.toNat_le _

theorem Balanced.connected_of_mem (hs : s.Balanced) (hmem : id ∈ s.registry.ids)
    (htold : .announce id ∉ s.pending) : .connected id ∈ s.events := by
  have hcount := List.count_pos_iff.mpr hmem
  have hcame := hs.told id
  rw [came, List.count_eq_zero.mpr htold] at hcame
  exact List.count_pos_iff.mp (by omega)

theorem Announced.closes (hs : s.Announced) (hbalanced : s.Balanced)
    (hall : [.closeAll] ∈ s.tasks) : ∀ a ∈ s.pending, a.isAdmission = false := by
  have hclosers := hs.closers
  have hpending : .closeAll ∈ s.pending := List.mem_flatten.mpr ⟨_, hall, List.mem_singleton_self _⟩
  have hpos := List.count_pos_iff.mpr hpending
  have hstopped : s.isRunning = false := by
    cases hrunning : s.isRunning with
    | false => rfl
    | true =>
      rw [hrunning, Bool.toNat_true] at hclosers
      omega
  -- A stop waits for the admissions before it closes all.
  obtain hwait | hclosing := hbalanced.stopped hstopped
  · -- One that still waits would be a second one that is to close all.
    obtain ⟨front, back, htasks⟩ := List.append_of_mem hall
    rw [htasks, List.mem_append, List.mem_cons] at hwait
    have hother : .closeAll ∈ front.flatten ++ back.flatten := by
      rw [List.mem_append, List.mem_flatten, List.mem_flatten]
      obtain hfront | hsame | hback := hwait
      · exact .inl ⟨_, hfront, by simp⟩
      · simp at hsame
      · exact .inr ⟨_, hback, by simp⟩
    have hothers := List.count_pos_iff.mpr hother
    rw [pending, htasks, List.flatten_append, List.flatten_cons, List.count_append,
      List.count_append, List.count_singleton_self] at hclosers
    rw [List.count_append] at hothers
    omega
  · exact hclosing.1

section

variable {a b : Action} {next rest : Task} {started front back : List Task}

theorem Turn.events (h : s.Turn a next rest started front back s') :
    s'.events = s.events ++ a.events := by
  cases h.effect with
  | enters hsession absent entries sessions events => exact events.trans (List.append_nil _).symm
  | leaves present entries sessions events => exact events.trans (List.append_nil _).symm
  | stays registry quiet kept events => cases a <;> exact events

theorem Turn.event_mem (h : s.Turn a next rest started front back s') {event : ServerEvent}
    (hevent : event ∈ s.events) : event ∈ s'.events := by
  rw [h.events]
  exact List.mem_append_left _ hevent

theorem Turn.head_pending (h : s.Turn a next rest started front back s') : a ∈ s.pending :=
  h.mem_pending.mpr (.inr (.inl rfl))

theorem Taken.leaver (h : s.Taken a next started t) (hb : b ∈ next)
    (hid : b.leaver? = some id) : a.leaver? = some id ∨
      id ∈ s.registry.ids ∧ (a = .command (.disconnect id) ∨ a = .closeAll) := by
  cases h with
  | finds present =>
    obtain rfl := List.mem_singleton.mp hb
    exact .inl hid
  | leaves present entries =>
    rw [List.mem_cons, List.mem_singleton] at hb
    obtain rfl | rfl := hb
    · cases hid
    · exact .inl hid
  | disconnects present =>
    rw [List.mem_cons, List.mem_singleton] at hb
    obtain rfl | rfl := hb
    · cases hid
    · cases hid
      exact .inr ⟨Registry.mem_ids (Registry.mem_of_get? present), .inl rfl⟩
  | closesAll =>
    obtain ⟨⟨id', h'⟩, hentry, hb⟩ := List.mem_flatMap.mp hb
    rw [List.mem_cons, List.mem_singleton] at hb
    obtain rfl | rfl := hb
    · cases hid
    · cases hid
      exact .inr ⟨Registry.mem_ids hentry, .inr rfl⟩
  | broadcasts message =>
    obtain ⟨h', -, rfl⟩ := List.mem_map.mp hb
    cases hid
  | sendsTo message targets =>
    obtain ⟨h', -, rfl⟩ := List.mem_map.mp hb
    cases hid
  | enters hsession absent entries =>
    rw [List.mem_cons, List.mem_singleton] at hb
    obtain rfl | rfl := hb <;> cases hid
  | fetches hqueue =>
    rw [List.mem_cons, List.mem_singleton] at hb
    obtain rfl | rfl := hb <;> cases hid
  | refused hsession present =>
    obtain rfl := List.mem_singleton.mp hb
    cases hid
  | _ => cases hb

theorem Turn.watches (h : s.Turn a next rest started front back s')
    (hshape : Task.Shape (a :: rest)) {h' : Handle} (heq : next ++ rest = [.watch h']) :
    ∃ id, a = .announce id ∧ rest = [.watch h'] := by
  obtain ⟨t, htaken, -⟩ := h.taken
  have hmem : .watch h' ∈ next ++ rest := heq ▸ List.mem_singleton_self _
  obtain hnext | hrest := List.mem_append.mp hmem
  · have hleads := htaken.leadsTo _ hnext
    cases a <;> simp only [Action.leadsTo] at hleads
    cases htaken with
    | enters hsession absent entries => simp at heq
    | entersNobody hnone => cases hnext
    | refused hsession present => cases List.mem_singleton.mp hnext
  · obtain ⟨i, hform⟩ | ⟨id, i, hform⟩ | ⟨i, hform⟩ :=
      hshape.of_admission (List.mem_cons_of_mem a hrest) rfl
    · obtain ⟨rfl, rfl⟩ := List.cons.inj hform
      cases hrest
    · obtain ⟨rfl, rfl⟩ := List.cons.inj hform
      cases List.mem_singleton.mp hrest
      exact ⟨id, rfl, rfl⟩
    · obtain ⟨rfl, rfl⟩ := List.cons.inj hform
      cases hrest

theorem Turn.announces (h : s.Turn a next rest started front back s')
    (hshape : Task.Shape (a :: rest)) {h' : Handle}
    (heq : next ++ rest = [.announce id, .watch h']) :
    ∃ session, s.sessions[h']? = some session ∧ session.id = id := by
  obtain ⟨t, htaken, -⟩ := h.taken
  have hmem : .announce id ∈ next ++ rest := heq ▸ List.mem_cons_self
  obtain hnext | hrest := List.mem_append.mp hmem
  · have hleads := htaken.leadsTo _ hnext
    cases a <;> simp only [Action.leadsTo] at hleads
    cases htaken with
    | enters hsession absent entries =>
      obtain ⟨hid, hwatch⟩ := List.cons.inj heq
      obtain ⟨hhandle, -⟩ := List.cons.inj hwatch
      cases hid
      cases hhandle
      exact ⟨_, hsession, rfl⟩
    | entersNobody hnone => cases hnext
    | refused hsession present => cases List.mem_singleton.mp hnext
  · obtain ⟨i, hform⟩ | ⟨id', i, hform⟩ | ⟨i, hform⟩ :=
      hshape.of_admission (List.mem_cons_of_mem a hrest) rfl
    · obtain ⟨rfl, rfl⟩ := List.cons.inj hform
      cases hrest
    · obtain ⟨rfl, rfl⟩ := List.cons.inj hform
      cases List.mem_singleton.mp hrest
    · obtain ⟨rfl, rfl⟩ := List.cons.inj hform
      cases hrest

theorem Announced.announcing_turn (hs : s.Announced)
    (h : s.Turn a next rest started front back s') (hshape : Task.Shape (a :: rest)) {h' : Handle}
    (htask : [.announce id, .watch h'] ∈ s'.tasks) :
    ∃ session, s'.sessions[h']? = some session ∧ session.id = id := by
  obtain ⟨t, htaken, -⟩ := h.taken
  obtain ⟨session, hsession, rfl⟩ : ∃ session, s.sessions[h']? = some session ∧
      session.id = id := by
    obtain hold | hnext | hstarted := h.mem_tasks' htask
    · exact hs.announcing id h' hold
    · exact h.announces hshape hnext.symm
    · obtain rfl | ⟨_, _, -, -, rfl⟩ := htaken.starts <;> simp at hstarted
  exact h.kept.exists_id hsession

theorem Announced.arriving_turn (hs : s.Announced)
    (h : s.Turn a next rest started front back s') (hshape : Task.Shape (a :: rest)) {h' : Handle}
    (htask : [.watch h'] ∈ s'.tasks) :
    ∃ session, s'.sessions[h']? = some session ∧ .connected session.id ∈ s'.events := by
  obtain ⟨t, htaken, -⟩ := h.taken
  obtain ⟨session, hsession, htold⟩ : ∃ session, s.sessions[h']? = some session ∧
      .connected session.id ∈ s'.events := by
    obtain hold | hnext | hstarted := h.mem_tasks' htask
    · obtain ⟨session, hsession, htold⟩ := hs.arriving h' hold
      exact ⟨session, hsession, h.event_mem htold⟩
    · -- The task has only now told of the client.
      obtain ⟨id, rfl, rfl⟩ := h.watches hshape hnext.symm
      obtain ⟨session, hsession, rfl⟩ := hs.announcing id h' h.head_mem
      refine ⟨session, hsession, ?_⟩
      rw [h.events]
      exact List.mem_append_right _ (List.mem_singleton_self _)
    · obtain rfl | ⟨_, _, -, -, rfl⟩ := htaken.starts <;> simp at hstarted
  obtain ⟨later, hlater, hid⟩ := h.kept.exists_id hsession
  exact ⟨later, hlater, hid ▸ htold⟩

theorem Announced.leaving_turn (hs : s.Announced) (hbalanced : s.Balanced)
    (h : s.Turn a next rest started front back s')
    (hpatient : ∀ id, a = .command (.disconnect id) → .announce id ∉ s.pending)
    (hb : b ∈ s'.pending) (hid : b.leaver? = some id) : .connected id ∈ s.events := by
  have hshape := hbalanced.shape _ h.head_mem
  obtain ⟨t, htaken, -⟩ := h.taken
  obtain hold | ⟨-, hnext⟩ | hstarted := h.mem_of_mem hb
  · exact hs.leaving b hold id hid
  · obtain hleaver | ⟨hmem, rfl | rfl⟩ := htaken.leaver hnext hid
    · exact hs.leaving a h.head_pending id hleaver
    · exact hbalanced.connected_of_mem hmem (hpatient id rfl)
    · refine hbalanced.connected_of_mem hmem ?_
      intro hannounce
      obtain rfl := hshape.of_closeAll
      cases hs.closes hbalanced h.head_mem _ hannounce
  · obtain rfl | ⟨h', session, rfl, hsession, rfl⟩ := htaken.starts
    · cases hstarted
    · obtain ⟨i, hform⟩ | ⟨id', i, hform⟩ | ⟨i, hform⟩ :=
        hshape.of_admission List.mem_cons_self rfl
      · cases hform
      · cases hform
      · cases hform
        obtain ⟨watched, hwatched, htold⟩ := hs.arriving h' h.head_mem
        cases hsession.symm.trans hwatched
        rw [List.flatten_singleton, List.mem_cons, List.mem_singleton] at hstarted
        obtain rfl | rfl := hstarted
        · cases hid
        · cases hid
          exact htold

theorem Announced.inOrder_turn (hs : s.Announced)
    (h : s.Turn a next rest started front back s') : InOrder s'.events := by
  rw [h.events]
  cases a with
  | announce id => exact hs.inOrder.concat nofun
  | announceGone id =>
    refine hs.inOrder.concat ?_
    intro id' heq
    cases heq
    exact hs.leaving _ h.head_pending id rfl
  | _ => simpa [Action.events] using hs.inOrder

theorem Announced.closers_turn (hs : s.Announced)
    (h : s.Turn a next rest started front back s') :
    s'.pending.count .closeAll + s'.isRunning.toNat ≤ 1 := by
  have hclosers := hs.closers
  have hcount := h.count_pending .closeAll
  obtain ⟨t, htaken, -⟩ := h.taken
  have hnext : next.count .closeAll = 0 := by
    refine List.count_eq_zero.mpr ?_
    intro hmem
    cases a <;> cases htaken.leadsTo _ hmem
  have hstarted : started.flatten.count .closeAll = 0 := by
    obtain rfl | ⟨_, _, -, -, rfl⟩ := htaken.starts <;> simp
  rw [h.running]
  omega

theorem Announced.turn (hs : s.Announced) (hbalanced : s.Balanced)
    (h : s.Turn a next rest started front back s')
    (hpatient : ∀ id, a = .command (.disconnect id) → .announce id ∉ s.pending) :
    s'.Announced where
  announcing _ _ := hs.announcing_turn h (hbalanced.shape _ h.head_mem)
  arriving _ := hs.arriving_turn h (hbalanced.shape _ h.head_mem)
  leaving _ hb _ hid := h.event_mem (hs.leaving_turn hbalanced h hpatient hb hid)
  inOrder := hs.inOrder_turn h
  closers := hs.closers_turn h

end

theorem Announced.grows {added : List Task} (hs : s.Announced) (h : s.Grows s' added) :
    s'.Announced where
  announcing := by
    intro id h' htask
    rw [h.tasks, List.mem_append] at htask
    obtain hold | hadded := htask
    · obtain ⟨session, hsession, rfl⟩ := hs.announcing id h' hold
      exact h.owned h' session hsession
    · cases h.opening _ (List.mem_flatten.mpr ⟨_, hadded, List.mem_cons_self⟩)
  arriving := by
    intro h' htask
    rw [h.tasks, List.mem_append] at htask
    obtain hold | hadded := htask
    · obtain ⟨session, hsession, htold⟩ := hs.arriving h' hold
      obtain ⟨later, hlater, hid⟩ := h.owned h' session hsession
      rw [h.events]
      exact ⟨later, hlater, hid ▸ htold⟩
    · cases h.opening _ (List.mem_flatten.mpr ⟨_, hadded, List.mem_cons_self⟩)
  leaving := by
    intro b hb id hid
    rw [h.events]
    obtain hold | hadded := h.mem_pending.mp hb
    · exact hs.leaving b hold id hid
    · rw [Action.leaver?_of_isOpening (h.opening b hadded)] at hid
      cases hid
  inOrder := by
    rw [h.events]
    exact hs.inOrder
  closers := by
    have hclosers := hs.closers
    have hadded := h.closers
    rw [pending, h.tasks, List.flatten_append, List.count_append, ← pending]
    omega

theorem Announced.move {m : Move} (hs : s.Announced) (hbalanced : s.Balanced)
    (hpatient : s.hurries m = false) (hmove : s.move m = some s') : s'.Announced := by
  obtain ⟨index, a, next, rest, started, front, back, rfl, htask, hturn⟩ | ⟨added, hgrows⟩ :=
    move_cases hmove
  · refine hs.turn hbalanced hturn ?_
    rintro id rfl hannounce
    rw [hurries, htask] at hpatient
    rw [← Bool.not_eq_true, List.contains_iff_mem] at hpatient
    exact hpatient hannounce
  · exact hs.grows hgrows

theorem Announced.follow (hs : s.Announced) (hbalanced : s.Balanced)
    (hpatient : s.isPatient moves = true) (hrun : s.follow moves = some s') :
    s'.Announced := by
  induction moves generalizing s with
  | nil =>
    cases hrun
    exact hs
  | cons m moves ih =>
    obtain ⟨next, hmove, hrest⟩ := Option.bind_eq_some_iff.mp hrun
    simp only [isPatient, hmove, Bool.and_eq_true, Bool.not_eq_true'] at hpatient
    exact ih (hs.move hbalanced hpatient.1 hmove) (hbalanced.move hmove) hpatient.2 hrest

/-- If no client is disconnected while its coming has still to be told, every client that is
told to be gone was told to be there before, over any run. -/
theorem connected_before_disconnected (hs : s.Idle) (hpatient : s.isPatient moves = true)
    (hrun : s.follow moves = some s') {before after : List ServerEvent}
    (hevents : s'.events = before ++ .disconnected id :: after) : .connected id ∈ before :=
  (hs.announced.follow hs.balanced hpatient hrun).inOrder before after id hevents

/-- A client is disconnected by a call once its coming was told. -/
theorem connected_before_disconnected_in_turn :
    let moves : List Move := [.accept (.ofNat 1) leaver, .task 0, .task 0,
      .call (.disconnect (.ofNat 1))] ++ [1, 1, 1, 1, 1, 1].map Move.task
    ∃ s', started.follow moves = some s' ∧ started.isPatient moves = true ∧
      s'.events = [.connected (.ofNat 1), .disconnected (.ofNat 1)] ∧
      .connected (.ofNat 1) ∈ [ServerEvent.connected (.ofNat 1)] := by
  intro moves
  have hpatient : started.isPatient moves = true := by decide +kernel
  have hfinal : (started.follow moves).map Server.events =
      some [.connected (.ofNat 1), .disconnected (.ofNat 1)] := by
    decide +kernel
  obtain ⟨s', hrun, hevents⟩ := Option.map_eq_some_iff.mp hfinal
  have hsplit : s'.events = [.connected (.ofNat 1)] ++ .disconnected (.ofNat 1) :: [] := hevents
  exact ⟨s', hrun, hpatient, hevents,
    connected_before_disconnected started_idle hpatient hrun hsplit⟩

/-- The call comes between the registration and the telling, and the client is told to be
gone before it is told to have come. -/
theorem disconnected_before_connected :
    let moves : List Move := [.accept (.ofNat 1) leaver, .task 0,
      .call (.disconnect (.ofNat 1))] ++ [1, 1, 1, 1, 1, 1, 0].map Move.task
    started.Idle ∧ started.isFresh moves = true ∧ ∃ s', started.follow moves = some s' ∧
      s'.events = [.disconnected (.ofNat 1), .connected (.ofNat 1)] := by
  intro moves
  have hfresh : started.isFresh moves = true := by decide +kernel
  have hfinal : (started.follow moves).map Server.events =
      some [.disconnected (.ofNat 1), .connected (.ofNat 1)] := by
    decide +kernel
  obtain ⟨s', hrun, hevents⟩ := Option.map_eq_some_iff.mp hfinal
  exact ⟨started_idle, hfresh, s', hrun, hevents⟩

end Server

end CipherLink
