import CipherLink.Proofs.Server.Shapes

/-!
# Registry, sessions and events in step

A client on its way in or out is always accounted for by an action that is still to
be taken: connected but not registered, registered but not watched, closed but not
removed, removed but not announced. Every turn of a task hands the account on.
-/

namespace CipherLink.Server

def came (s : Server) (id : ClientId) : Nat :=
  s.events.count (.connected id) + s.pending.count (.announce id)

def gone (s : Server) (id : ClientId) : Nat :=
  s.events.count (.disconnected id) + s.pending.count (.announceGone id)

theorem departed_iff (s : Server) (id : ClientId) : s.departed id = true ↔ 0 < s.gone id := by
  rw [gone, Nat.add_pos_iff_pos_or_pos, List.count_pos_iff, List.count_pos_iff]
  simp [departed, pending]

/-- Behind the wait for admissions nobody comes in, and whoever is registered is being
closed. -/
def Closing (s : Server) : Prop :=
  (∀ a ∈ s.pending, a.isAdmission = false) ∧ ([.closeAll] ∈ s.tasks ∨
    ∀ (id : ClientId) (h : Handle) (session : Session), (id, h) ∈ s.registry.entries →
      s.sessions[h]? = some session → session.isConnected = true → .close h ∈ s.pending)

/-- What holds between any two steps of a server, whichever ids its clients are given. -/
structure Balanced (s : Server) : Prop where
  shape : ∀ task ∈ s.tasks, Task.Shape task
  owned : ∀ (id : ClientId) (h : Handle), (id, h) ∈ s.registry.entries →
    ∃ session, s.sessions[h]? = some session ∧ session.id = id
  /-- A connected client is registered, or is on its way in or out. -/
  placed : ∀ (h : Handle) (session : Session), s.sessions[h]? = some session →
    session.isConnected = true → .register h ∈ s.pending ∨
      (session.id, h) ∈ s.registry.entries ∨ .close h ∈ s.pending
  /-- A registered client is watched, or somebody is about to remove it. -/
  watched : ∀ (id : ClientId) (h : Handle), (id, h) ∈ s.registry.entries →
    .watch h ∈ s.pending ∨ [.awaitClosed h, .check id] ∈ s.tasks ∨
      ∃ task ∈ s.tasks, (.check id ∈ task ∨ .remove id ∈ task) ∧ ∀ h', .awaitClosed h' ∉ task
  /-- Whoever came is there or has left. -/
  told : ∀ id : ClientId, s.came id = s.registry.ids.count id + s.gone id
  stopped : s.isRunning = false → [.awaitAdmissions, .closeAll] ∈ s.tasks ∨ s.Closing

/-- What holds as well if no id is registered again after it has left. -/
structure InStep (s : Server) : Prop extends s.Balanced where
  once : ∀ id : ClientId, s.came id ≤ 1

section

variable {s s' : Server} {a : Action} {next rest : Task} {started before after : List Task}

theorem Turn.entries_cases (h : s.Turn a next rest started before after s') {id : ClientId}
    {h' : Handle} (hmem : (id, h') ∈ s'.registry.entries) :
    (id, h') ∈ s.registry.entries ∨ ∃ session, a = .register h' ∧
      s.sessions[h']? = some session ∧ session.id = id ∧
      next = [.announce id, .watch h'] := by
  cases h.effect with
  | enters hsession absent entries =>
    rw [entries, List.mem_append, List.mem_singleton] at hmem
    obtain hmem | hmem := hmem
    · exact .inl hmem
    · obtain ⟨rfl, rfl⟩ := Prod.mk.inj hmem
      exact .inr ⟨_, rfl, hsession, rfl, rfl⟩
  | leaves present entries =>
    rw [entries, List.mem_filter] at hmem
    exact .inl hmem.1
  | stays registry =>
    rw [registry] at hmem
    exact .inl hmem

theorem Turn.entry_cases (h : s.Turn a next rest started before after s') {id : ClientId}
    {h' : Handle} (hmem : (id, h') ∈ s.registry.entries) :
    (id, h') ∈ s'.registry.entries ∨ a = .remove id ∧ next = [.close h', .announceGone id] := by
  cases h.effect with
  | enters hsession absent entries =>
    rw [entries]
    exact .inl (List.mem_append_left _ hmem)
  | @leaves id' h'' _ present entries =>
    by_cases hid : id = id'
    · subst hid
      rw [Registry.eq_of_mem (Registry.mem_of_get? present) hmem]
      exact .inr ⟨rfl, rfl⟩
    · left
      rw [entries, List.mem_filter]
      exact ⟨hmem, by simpa using hid⟩
  | stays registry =>
    rw [registry]
    exact .inl hmem

theorem Turn.owned (h : s.Turn a next rest started before after s')
    (howned : ∀ (id : ClientId) (h : Handle), (id, h) ∈ s.registry.entries →
      ∃ session, s.sessions[h]? = some session ∧ session.id = id)
    {id : ClientId} {h' : Handle} (hmem : (id, h') ∈ s'.registry.entries) :
    ∃ session, s'.sessions[h']? = some session ∧ session.id = id := by
  obtain ⟨session, hsession, rfl⟩ : ∃ session, s.sessions[h']? = some session ∧
      session.id = id := by
    obtain hmem | ⟨session, -, hsession, hid, -⟩ := h.entries_cases hmem
    · exact howned id h' hmem
    · exact ⟨session, hsession, hid⟩
  exact h.kept.exists_id hsession

theorem Turn.closes {h' : Handle} (h : s.Turn (.close h') next rest started before after s')
    {session : Session} (hsession : s'.sessions[h']? = some session) :
    session.isConnected = false := by
  obtain ⟨t, htaken, hsame⟩ := h.taken
  obtain ⟨sessions, hclose, -, hclosed⟩ := s.closeSession_eq h'
  cases htaken with
  | closes =>
    rw [hsame, hclose] at hsession
    exact hclosed session hsession

theorem Turn.placed (h : s.Turn a next rest started before after s') (hs : s.Balanced)
    {h' : Handle} {session : Session} (hsession : s'.sessions[h']? = some session)
    (hconnected : session.isConnected = true) :
    .register h' ∈ s'.pending ∨ (session.id, h') ∈ s'.registry.entries ∨
      .close h' ∈ s'.pending := by
  obtain ⟨old, hold, hid, hwas⟩ := h.kept.exists_old hsession
  obtain hregister | hentry | hclose := hs.placed h' old hold (hwas hconnected)
  · by_cases ha : .register h' = a
    · -- Its own admission: it is entered now, or refused and about to be closed.
      right
      subst ha
      obtain ⟨t, htaken, hsame⟩ := h.taken
      cases htaken with
      | enters hsession absent entries =>
        left
        rw [hold, Option.some.injEq] at hsession
        rw [hsame]
        simp only
        rw [entries, hid, hsession]
        exact List.mem_append_right _ (List.mem_singleton_self _)
      | refused => exact .inr (h.adds List.mem_cons_self)
      | entersNobody hnone => simp [hnone] at hold
    · exact .inl (h.keeps hregister ha)
  · right
    rw [hid]
    obtain hentry | ⟨-, rfl⟩ := h.entry_cases hentry
    · exact .inl hentry
    · exact .inr (h.adds List.mem_cons_self)
  · by_cases ha : .close h' = a
    · subst ha
      simp [h.closes hsession] at hconnected
    · exact .inr (.inr (h.keeps hclose ha))

theorem Turn.head_mem (h : s.Turn a next rest started before after s') : a :: rest ∈ s.tasks := by
  rw [h.tasks]
  simp

theorem Turn.mem_tasks (h : s.Turn a next rest started before after s') {task : Task}
    (hmem : task ∈ s.tasks) : task = a :: rest ∨ task ∈ s'.tasks := by
  rw [h.tasks] at hmem
  rw [h.tasks']
  simp only [List.mem_append, List.mem_cons] at hmem ⊢
  tauto

theorem Turn.mem_tasks' (h : s.Turn a next rest started before after s') {task : Task}
    (htask : task ∈ s'.tasks) : task ∈ s.tasks ∨ task = next ++ rest ∨ task ∈ started := by
  rw [h.tasks'] at htask
  rw [h.tasks]
  simp only [List.mem_append, List.mem_cons] at htask ⊢
  tauto

theorem Turn.next_mem_tasks (h : s.Turn a next rest started before after s') :
    next ++ rest ∈ s'.tasks := by
  rw [h.tasks']
  simp

theorem Turn.never_awaits (h : s.Turn a next rest started before after s') {h' : Handle} :
    .awaitClosed h' ∉ next := by
  intro hmem
  obtain ⟨t, htaken, -⟩ := h.taken
  have hleads := htaken.leadsTo _ hmem
  cases a <;> simp [Action.leadsTo] at hleads

theorem Turn.removes (h : s.Turn a next rest started before after s') {id : ClientId}
    {h' : Handle} (hold : (id, h') ∈ s.registry.entries) (hmem : (id, h') ∈ s'.registry.entries)
    (hremoves : .check id ∈ a :: rest ∨ .remove id ∈ a :: rest) :
    .check id ∈ next ++ rest ∨ .remove id ∈ next ++ rest := by
  obtain ⟨t, htaken, hsame⟩ := h.taken
  simp only [List.mem_append, List.mem_cons] at hremoves ⊢
  obtain (rfl | hcheck) | (rfl | hremove) := hremoves
  · cases htaken with
    | finds => simp
    | misses absent => exact absurd (Registry.mem_ids hold) absent
  · exact .inl (.inr hcheck)
  · exfalso
    cases htaken with
    | leaves present entries =>
      rw [hsame] at hmem
      simp only [entries, List.mem_filter] at hmem
      simp at hmem
    | hasLeft absent => exact Registry.get?_ne_none hold absent
  · exact .inr (.inr hremove)

theorem Turn.watched (h : s.Turn a next rest started before after s') (hs : s.Balanced)
    {id : ClientId} {h' : Handle} (hmem : (id, h') ∈ s'.registry.entries) :
    .watch h' ∈ s'.pending ∨ [.awaitClosed h', .check id] ∈ s'.tasks ∨
      ∃ task ∈ s'.tasks, (.check id ∈ task ∨ .remove id ∈ task) ∧
        ∀ h'', .awaitClosed h'' ∉ task := by
  obtain ⟨t, htaken, -⟩ := h.taken
  obtain hold | ⟨session, rfl, -, -, rfl⟩ := h.entries_cases hmem
  · obtain hwatch | hawaits | ⟨task, htask, hremoves, hnever⟩ := hs.watched id h' hold
    · by_cases ha : .watch h' = a
      · right
        left
        subst ha
        obtain ⟨session, hsession, rfl⟩ := hs.owned id h' hold
        cases htaken with
        | watches hsame =>
          rw [hsession, Option.some.injEq] at hsame
          rw [h.tasks', hsame]
          simp
        | watchesNobody hnone => simp [hnone] at hsession
      · exact .inl (h.keeps hwatch ha)
    · right
      obtain heq | hawaits := h.mem_tasks hawaits
      · -- The watcher goes on to the check.
        right
        obtain ⟨rfl, rfl⟩ := List.cons.inj heq
        refine ⟨_, h.next_mem_tasks, .inl (by simp), ?_⟩
        intro h'' hmem
        obtain hmem | hmem := List.mem_append.mp hmem
        · exact h.never_awaits hmem
        · simp at hmem
      · exact .inl hawaits
    · right
      right
      obtain rfl | htask := h.mem_tasks htask
      · refine ⟨_, h.next_mem_tasks, h.removes hold hmem hremoves, ?_⟩
        intro h'' hmem
        obtain hmem | hmem := List.mem_append.mp hmem
        · exact h.never_awaits hmem
        · exact hnever h'' (List.mem_cons_of_mem a hmem)
      · exact ⟨task, htask, hremoves, hnever⟩
  · exact .inl (h.adds (by simp))

theorem Turn.tally (h : s.Turn a next rest started before after s') (id : ClientId) :
    s'.came id = s.came id ∧ s'.gone id = s.gone id ∧
      s'.registry.ids.count id = s.registry.ids.count id ∨
    (∃ h' session, a = .register h' ∧ s.sessions[h']? = some session ∧ session.id = id ∧
      id ∉ s.registry.ids) ∧ s'.came id = s.came id + 1 ∧ s'.gone id = s.gone id ∧
      s'.registry.ids.count id = s.registry.ids.count id + 1 ∨
    s'.came id = s.came id ∧ s'.gone id = s.gone id + 1 ∧
      s.registry.ids.count id = s'.registry.ids.count id + 1 := by
  have hcame := h.count_pending (.announce id)
  have hgone := h.count_pending (.announceGone id)
  have hstarted : started.flatten.count (.announce id) = 0 ∧
      started.flatten.count (.announceGone id) = 0 := by
    obtain ⟨t, htaken, -⟩ := h.taken
    obtain rfl | ⟨_, _, -, -, rfl⟩ := htaken.starts <;> simp
  rw [hstarted.1] at hcame
  rw [hstarted.2] at hgone
  simp only [came, gone]
  cases h.effect with
  | @enters h' session _ hsession absent entries _ events =>
    by_cases hid : session.id = id
    · right
      left
      subst hid
      refine ⟨⟨h', session, rfl, hsession, rfl, absent⟩, ?_⟩
      simp [Registry.ids, entries, events] at hcame hgone ⊢
      omega
    · left
      simp [Registry.ids, entries, events, hid] at hcame hgone ⊢
      omega
  | @leaves id' h' _ present entries _ events =>
    have hids : s'.registry.ids = s.registry.ids.filter (· != id') := by
      rw [Registry.ids, entries, Registry.ids, List.filter_map]
      rfl
    by_cases hid : id' = id
    · right
      right
      subst hid
      have hone : s.registry.ids.count id' = 1 :=
        List.count_eq_one_of_mem s.registry.distinct
          (Registry.mem_ids (Registry.mem_of_get? present))
      have hzero : s'.registry.ids.count id' = 0 := by
        rw [List.count_eq_zero, hids]
        simp
      simp [events] at hcame hgone ⊢
      omega
    · left
      rw [hids, List.count_filter (by simpa using Ne.symm hid)]
      simp [events, hid] at hcame hgone ⊢
      omega
  | stays registry quiet _ events =>
    left
    rw [List.count_eq_zero.mpr (quiet id).1] at hcame
    rw [List.count_eq_zero.mpr (quiet id).2] at hgone
    rw [registry]
    by_cases hannounce : a = .announce id
    · subst hannounce
      simp [events] at hcame hgone ⊢
      omega
    · by_cases hannounce' : a = .announceGone id
      · subst hannounce'
        simp [events] at hcame hgone ⊢
        omega
      · rw [List.count_singleton, if_neg (by simpa using hannounce)] at hcame
        rw [List.count_singleton, if_neg (by simpa using hannounce')] at hgone
        have hevents : s'.events.count (.connected id) = s.events.count (.connected id) ∧
            s'.events.count (.disconnected id) = s.events.count (.disconnected id) := by
          rw [events]
          cases a <;> simp_all
        omega

theorem Turn.mem_pending_of_work (h : s.Turn a next rest started before after s')
    (ha : a.isAdmission = false) {b : Action} (hb : b ∈ s'.pending) :
    b ∈ s.pending ∨ b.isAdmission = false := by
  obtain ⟨t, htaken, -⟩ := h.taken
  obtain hb | ⟨hleads, -⟩ | hb := h.mem_of_mem hb
  · exact .inl hb
  · right
    cases a <;> cases b <;> simp_all [Action.leadsTo, Action.isAdmission]
  · obtain rfl | ⟨h', session, rfl, -⟩ := htaken.starts
    · simp at hb
    · simp [Action.isAdmission] at ha

theorem Turn.closing_of_wait
    (h : s.Turn .awaitAdmissions next [.closeAll] started before after s')
    (hshape : ∀ task ∈ s.tasks, Task.Shape task) : s'.Closing := by
  obtain ⟨t, htaken, -⟩ := h.taken
  cases htaken with
  | admitted hnone =>
    refine ⟨?_, .inl h.next_mem_tasks⟩
    intro b hb
    obtain hb | hb := h.mem_pending_of_work rfl hb
    · obtain ⟨task, htask, hb⟩ := List.mem_flatten.mp hb
      by_contra hadmission
      rw [Bool.not_eq_false] at hadmission
      obtain ⟨head, more, rfl, hhead⟩ := (hshape task htask).head_isAdmission hb hadmission
      simp [hnone head more htask] at hhead
    · exact hb

theorem Turn.closing (h : s.Turn a next rest started before after s') (hs : s.Closing) :
    s'.Closing := by
  have ha : a.isAdmission = false := hs.1 a (h.mem_pending.mpr (by simp))
  refine ⟨?_, ?_⟩
  · intro b hb
    obtain hb | hb := h.mem_pending_of_work ha hb
    · exact hs.1 b hb
    · exact hb
  · have hentries : ∀ {id h'}, (id, h') ∈ s'.registry.entries → (id, h') ∈ s.registry.entries := by
      intro id h' hmem
      obtain hmem | ⟨session, rfl, -⟩ := h.entries_cases hmem
      · exact hmem
      · simp [Action.isAdmission] at ha
    obtain hall | hclose := hs.2
    · obtain heq | hall := h.mem_tasks hall
      · -- The task that closes all takes its turn: every entry gets a close of its own.
        right
        obtain ⟨rfl, rfl⟩ := List.cons.inj heq
        obtain ⟨t, htaken, -⟩ := h.taken
        cases htaken with
        | closesAll =>
          intro id h' session hmem hsession hconnected
          refine h.adds ?_
          rw [List.mem_flatMap]
          exact ⟨(id, h'), hentries hmem, List.mem_cons_self⟩
      · exact .inl hall
    · right
      intro id h' session hmem hsession hconnected
      obtain ⟨old, hold, -, hwas⟩ := h.kept.exists_old hsession
      have hpending := hclose id h' old (hentries hmem) hold (hwas hconnected)
      by_cases hne : .close h' = a
      · subst hne
        simp [h.closes hsession] at hconnected
      · exact h.keeps hpending hne

theorem Balanced.turn (hs : s.Balanced) (h : s.Turn a next rest started before after s') :
    s'.Balanced where
  shape := by
    intro task htask
    obtain hold | rfl | hstarted := h.mem_tasks' htask
    · exact hs.shape task hold
    · exact h.shape (hs.shape _ h.head_mem)
    · obtain ⟨t, htaken, -⟩ := h.taken
      obtain rfl | ⟨h', session, -, -, rfl⟩ := htaken.starts
      · simp at hstarted
      · rw [List.mem_singleton.mp hstarted]
        exact .watching h' session.id
  owned id h' hmem := h.owned hs.owned hmem
  placed h' session hsession hconnected := h.placed hs hsession hconnected
  watched id h' hmem := h.watched hs hmem
  told id := by
    have htold := hs.told id
    have htally := h.tally id
    omega
  stopped hstopped := by
    rw [h.running] at hstopped
    obtain hwait | hclosing := hs.stopped hstopped
    · obtain heq | hwait := h.mem_tasks hwait
      · right
        obtain ⟨rfl, rfl⟩ := List.cons.inj heq
        exact h.closing_of_wait hs.shape
      · exact .inl hwait
    · exact .inr (h.closing hclosing)

theorem InStep.turn (hs : s.InStep) (h : s.Turn a next rest started before after s')
    (hfresh : ∀ h' session, a = .register h' → s.sessions[h']? = some session →
      s.gone session.id = 0) : s'.InStep where
  toBalanced := hs.toBalanced.turn h
  once id := by
    have htold := hs.told id
    have honce := hs.once id
    obtain htally | ⟨⟨h', session, ha, hsession, rfl, habsent⟩, htally⟩ | htally := h.tally id
    · omega
    · -- The id is absent and has not left, so nobody came under it before.
      have hgone := hfresh h' session ha hsession
      rw [List.count_eq_zero.mpr habsent] at htold
      omega
    · omega

end

end CipherLink.Server
