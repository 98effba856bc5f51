import CipherLink.Proofs.Server.Runs

/-!
# Registrations

Over any run of a server the registry, the sessions and the events tell the same: who
has come is told once, who has left is told once, and when nothing is underway the
registered clients are those that are connected.
-/

namespace CipherLink.Server

variable {s s' t : Server} {moves before after : List Move} {id : ClientId} {h : Handle}

structure Idle (s : Server) : Prop where
  sessions : s.sessions = []
  registry : s.registry.entries = []
  events : s.events = []
  tasks : s.tasks = []

theorem idle_of_start {config : ServerConfig} {files : KeyFiles} {noise : Noise}
    {address : String} (hstart : (new config files noise).start address = .ok s) : s.Idle := by
  simp only [start, new, Bool.false_eq_true, if_false] at hstart
  split at hstart <;> cases hstart
  exact ⟨rfl, rfl, rfl, rfl⟩

theorem Idle.balanced (hs : s.Idle) : s.Balanced where
  shape := by simp [hs.tasks]
  owned := by simp [hs.registry]
  placed := by simp [hs.sessions]
  watched := by simp [hs.registry]
  told := by simp [came, gone, pending, Registry.ids, hs.events, hs.tasks, hs.registry]
  stopped := by
    intro _
    exact .inr ⟨by simp [pending, hs.tasks], .inr (by simp [hs.registry])⟩

theorem Idle.inStep (hs : s.Idle) : s.InStep where
  toBalanced := hs.balanced
  once := by simp [came, pending, hs.events, hs.tasks]

def Registers (s : Server) (moves : List Move) (id : ClientId) : Prop :=
  ∃ before t, before <+: moves ∧ s.follow before = some t ∧ id ∈ t.registry.ids

theorem InStep.came_of_mem (hs : s.InStep) (hmem : id ∈ s.registry.ids) : 0 < s.came id := by
  have hcount := List.count_pos_iff.mpr hmem
  have htold := hs.told id
  omega

theorem InStep.absent_of_gone (hs : s.InStep) (hgone : 0 < s.gone id) :
    id ∉ s.registry.ids := by
  intro hmem
  have hcount := List.count_pos_iff.mpr hmem
  have htold := hs.told id
  have honce := hs.once id
  omega

theorem came_of_move {m : Move} (hmove : s.move m = some s') (id : ClientId) :
    (0 < s.came id → 0 < s'.came id) ∧
      (0 < s'.came id → 0 < s.came id ∨ id ∈ s'.registry.ids) := by
  obtain ⟨index, a, next, rest, started, before, after, -, -, hturn⟩ | ⟨added, hgrows⟩ :=
    move_cases hmove
  · rw [← List.count_pos_iff]
    have htally := hturn.tally id
    omega
  · rw [hgrows.came_eq]
    exact ⟨fun hcame => hcame, .inl⟩

theorem entry_of_move {m : Move} (hmove : s.move m = some s')
    (hentry : (id, h) ∈ s.registry.entries ∨ 0 < s.gone id) :
    (id, h) ∈ s'.registry.entries ∨ 0 < s'.gone id := by
  obtain ⟨index, a, next, rest, started, before, after, -, -, hturn⟩ | ⟨added, hgrows⟩ :=
    move_cases hmove
  · obtain hentry | hgone := hentry
    · obtain hentry | ⟨-, rfl⟩ := hturn.entry_cases hentry
      · exact .inl hentry
      · right
        have hpending : .announceGone id ∈ s'.pending := hturn.adds (by simp)
        rw [gone]
        have hcount := List.count_pos_iff.mpr hpending
        omega
    · right
      have htally := hturn.tally id
      omega
  · rw [hgrows.registry, hgrows.gone_eq]
    exact hentry

theorem registers_cons {m : Move} {next : Server} (hmove : s.move m = some next) :
    s.Registers (m :: moves) id ↔ id ∈ s.registry.ids ∨ next.Registers moves id := by
  refine ⟨?_, ?_⟩
  · rintro ⟨before, t, hbefore, hfollow, hmem⟩
    obtain rfl | ⟨before, rfl, hprefix⟩ := List.prefix_cons_iff.mp hbefore
    · cases hfollow
      exact .inl hmem
    · rw [follow, hmove, Option.bind_some] at hfollow
      exact .inr ⟨before, t, hprefix, hfollow, hmem⟩
  · rintro (hmem | ⟨before, t, hbefore, hfollow, hmem⟩)
    · exact ⟨[], s, List.nil_prefix, rfl, hmem⟩
    · refine ⟨m :: before, t, (List.prefix_cons_inj m).mpr hbefore, ?_, hmem⟩
      rw [follow, hmove, Option.bind_some, hfollow]

theorem InStep.came_iff (hs : s.InStep) (hfresh : s.isFresh moves = true)
    (hrun : s.follow moves = some s') :
    0 < s'.came id ↔ 0 < s.came id ∨ s.Registers moves id := by
  induction moves generalizing s with
  | nil =>
    cases hrun
    refine ⟨.inl, ?_⟩
    rintro (hcame | ⟨before, t, hbefore, hfollow, hmem⟩)
    · exact hcame
    · rw [List.prefix_nil.mp hbefore] at hfollow
      cases hfollow
      exact hs.came_of_mem hmem
  | cons m moves ih =>
    obtain ⟨next, hmove, hrest⟩ := Option.bind_eq_some_iff.mp hrun
    simp only [isFresh, hmove, Bool.and_eq_true, Bool.not_eq_true'] at hfresh
    have hnext := hs.move hfresh.1 hmove
    obtain ⟨hstays, hcomes⟩ := came_of_move hmove id
    rw [ih hnext hfresh.2 hrest, registers_cons hmove]
    refine ⟨?_, ?_⟩
    · rintro (hcame | hregisters)
      · obtain hcame | hmem := hcomes hcame
        · exact .inl hcame
        · exact .inr (.inr ⟨[], next, List.nil_prefix, rfl, hmem⟩)
      · exact .inr (.inr hregisters)
    · rintro (hcame | hmem | hregisters)
      · exact .inl (hstays hcame)
      · exact .inl (hstays (hs.came_of_mem hmem))
      · exact .inr hregisters

theorem InStep.handle_eq (hs : s.InStep) (hfresh : s.isFresh moves = true)
    (hrun : s.follow moves = some s') {h' : Handle} (hfirst : (id, h) ∈ s.registry.entries)
    (hlast : (id, h') ∈ s'.registry.entries) : h' = h := by
  obtain hentry | hgone := follow_keeps
    (P := fun t => (id, h) ∈ t.registry.entries ∨ 0 < t.gone id) (.inl hfirst)
    (fun _ _ _ _ hentry hmove => entry_of_move hmove hentry) hrun
  · exact Registry.eq_of_mem hlast hentry
  · exact absurd (Registry.mem_ids hlast) ((hs.follow hfresh hrun).absent_of_gone hgone)

theorem AtRest.pending (hrest : s.AtRest) (hs : s.InStep) {a : Action} (ha : a ∈ s.pending) :
    (∃ h, a = .awaitClosed h) ∨ (∃ id, a = .check id) ∨ a = .takeCommand := by
  obtain ⟨task, htask, ha⟩ := List.mem_flatten.mp ha
  obtain rfl | ⟨h', id, session, rfl, -⟩ | ⟨rfl, -⟩ := hrest.task hs.shape htask
  · simp at ha
  · simp only [List.mem_cons, List.not_mem_nil, or_false] at ha
    obtain rfl | rfl := ha
    · exact .inl ⟨_, rfl⟩
    · exact .inr (.inl ⟨_, rfl⟩)
  · exact .inr (.inr (List.mem_singleton.mp ha))

theorem AtRest.mem_entries_iff (hrest : s.AtRest) (hs : s.InStep) :
    (id, h) ∈ s.registry.entries ↔
      ∃ session, s.sessions[h]? = some session ∧ session.id = id ∧
        session.isConnected = true := by
  refine ⟨?_, ?_⟩
  · intro hmem
    obtain ⟨session, hsession, hid⟩ := hs.owned id h hmem
    refine ⟨session, hsession, hid, ?_⟩
    obtain hwatch | hawaits | ⟨task, htask, hremoves, hnever⟩ := hs.watched id h hmem
    · simpa using hrest.pending hs hwatch
    · obtain heq | ⟨h', id', session', heq, hsession', hconnected⟩ | ⟨heq, -⟩ :=
        hrest.task hs.shape hawaits
      · simp at heq
      · obtain ⟨rfl, -⟩ : h = h' ∧ id = id' := by simpa using heq
        rw [hsession, Option.some.injEq] at hsession'
        rw [hsession', hconnected]
      · simp at heq
    · -- A removal that is not behind a wait for the client could go on.
      obtain rfl | ⟨h', id', session', rfl, -⟩ | ⟨rfl, -⟩ := hrest.task hs.shape htask
      · simp at hremoves
      · exact absurd List.mem_cons_self (hnever h')
      · simp at hremoves
  · rintro ⟨session, hsession, rfl, hconnected⟩
    obtain hregister | hentry | hclose := hs.placed h session hsession hconnected
    · simpa using hrest.pending hs hregister
    · exact hentry
    · simpa using hrest.pending hs hclose

theorem AtRest.connected_iff (hrest : s.AtRest) (hs : s.InStep) :
    .connected id ∈ s.events ↔ 0 < s.came id := by
  have hnone : s.pending.count (.announce id) = 0 := by
    rw [List.count_eq_zero]
    intro hmem
    simpa using hrest.pending hs hmem
  rw [came, hnone, Nat.add_zero, List.count_pos_iff]

theorem AtRest.disconnected_iff (hrest : s.AtRest) (hs : s.InStep) :
    .disconnected id ∈ s.events ↔ 0 < s.came id ∧ id ∉ s.registry.ids := by
  have hnone : s.pending.count (.announceGone id) = 0 := by
    rw [List.count_eq_zero]
    intro hmem
    simpa using hrest.pending hs hmem
  have htold := hs.told id
  have honce := hs.once id
  rw [gone, hnone, Nat.add_zero] at htold
  rw [← List.count_pos_iff, ← List.count_eq_zero]
  omega

theorem AtRest.nobody (hrest : s.AtRest) (hs : s.InStep) (hstopped : s.isRunning = false) :
    s.registry.entries = [] ∧ ∀ session ∈ s.sessions, session.isConnected = false := by
  have hclosed : ∀ id h, (id, h) ∉ s.registry.entries := by
    intro id h hmem
    obtain ⟨session, hsession, -, hconnected⟩ := (hrest.mem_entries_iff hs).mp hmem
    obtain hwait | ⟨-, hall | hclose⟩ := hs.stopped hstopped
    · simpa using hrest.task hs.shape hwait
    · simpa using hrest.task hs.shape hall
    · simpa using hrest.pending hs (hclose id h session hmem hsession hconnected)
  refine ⟨List.eq_nil_iff_forall_not_mem.mpr fun entry => hclosed entry.1 entry.2, ?_⟩
  intro session hsession
  obtain ⟨h, hget⟩ := List.mem_iff_getElem?.mp hsession
  by_contra hconnected
  rw [Bool.not_eq_false] at hconnected
  exact hclosed _ _ ((hrest.mem_entries_iff hs).mpr ⟨session, hget, rfl, hconnected⟩)

theorem atRest_iff (s : Server) :
    s.AtRest ↔ ((List.range s.tasks.length).findSome? s.stepTask?).isNone = true := by
  rw [Option.isNone_iff_eq_none, List.findSome?_eq_none_iff]
  refine ⟨fun hrest index _ => hrest index, ?_⟩
  intro hnone index
  by_cases hlt : index < s.tasks.length
  · exact hnone index (List.mem_range.mpr hlt)
  · rw [stepTask?, List.getElem?_eq_none (Nat.le_of_not_lt hlt)]

instance (s : Server) : Decidable s.AtRest :=
  decidable_of_iff _ s.atRest_iff.symm

theorem move_duplicate {index : Nat} {rest : Task} {session : Session} {h' : Handle}
    (htask : s.tasks[index]? = some (.register h :: rest))
    (hsession : s.sessions[h]? = some session)
    (htaken : (session.id, h') ∈ s.registry.entries) :
    ∃ t, s.move (.task index) = some t ∧ t.registry = s.registry ∧
      t.tasks[index]? = some (.close h :: rest) := by
  have hcontains : s.registry.contains session.id = true :=
    Registry.contains_iff.mpr (Registry.mem_ids htaken)
  have htake : s.take (.register h) = some ([.close h], [], s) := by
    simp only [take, hsession, Registry.register, hcontains, dif_pos]
  refine ⟨{ s with tasks := s.tasks.set index (.close h :: rest) }, ?_, rfl, ?_⟩
  · simp [move, stepTask?, htask, htake]
  · exact getElem?_set_of_some htask _

/-- Along every run from an idle server, as long as no id is registered again after it
has left: an id comes and leaves at most once, and its entry stands while it is there.
A server at rest has registered those that are connected, and has told who left; one
that was stopped has nobody left. -/
theorem registry_in_step (hs : s.Idle) (hfresh : s.isFresh moves = true)
    (hrun : s.follow moves = some s') :
    (∀ id, s'.events.count (.connected id) ≤ 1 ∧ s'.events.count (.disconnected id) ≤ 1 ∧
      (.disconnected id ∈ s'.events → s.Registers moves id)) ∧
    (∀ before t id h h', before <+: moves → s.follow before = some t →
      (id, h) ∈ t.registry.entries → (id, h') ∈ s'.registry.entries → h' = h) ∧
    (∀ index h rest session h', s'.tasks[index]? = some (.register h :: rest) →
      s'.sessions[h]? = some session → (session.id, h') ∈ s'.registry.entries →
      ∃ t, s'.move (.task index) = some t ∧ t.registry = s'.registry ∧
        t.tasks[index]? = some (.close h :: rest)) ∧
    (s'.AtRest →
      (∀ id h, (id, h) ∈ s'.registry.entries ↔ ∃ session, s'.sessions[h]? = some session ∧
        session.id = id ∧ session.isConnected = true) ∧
      (∀ id, .connected id ∈ s'.events ↔ s.Registers moves id) ∧
      (∀ id, .disconnected id ∈ s'.events ↔
        s.Registers moves id ∧ id ∉ s'.registry.ids) ∧
      (s'.isRunning = false → s'.registry.entries = [] ∧
        ∀ session ∈ s'.sessions, session.isConnected = false)) := by
  have hstart := hs.inStep
  have hend := hstart.follow hfresh hrun
  have hcame (id : ClientId) : 0 < s'.came id ↔ s.Registers moves id := by
    have hnone : s.came id = 0 := by simp [came, pending, hs.events, hs.tasks]
    rw [hstart.came_iff hfresh hrun, hnone]
    simp
  refine ⟨?_, ?_, ?_, ?_⟩
  · intro id
    have htold := hend.told id
    have honce := hend.once id
    rw [← hcame, ← List.count_pos_iff]
    simp only [came, gone] at htold honce ⊢
    omega
  · rintro before t id h h' ⟨after, rfl⟩ hbefore hfirst hlast
    rw [isFresh_append hbefore, Bool.and_eq_true] at hfresh
    rw [follow_append, hbefore, Option.bind_some] at hrun
    exact (hstart.follow hfresh.1 hbefore).handle_eq hfresh.2 hrun hfirst hlast
  · intro index h rest session h' htask hsession htaken
    exact move_duplicate htask hsession htaken
  · intro hrest
    refine ⟨?_, ?_, ?_, hrest.nobody hend⟩
    · intro id h
      exact hrest.mem_entries_iff hend
    · intro id
      rw [hrest.connected_iff hend, hcame]
    · intro id
      rw [hrest.disconnected_iff hend, hcame]

/-- Two clients come under one id and a third under another; while the first is being
disconnected and the third closes, the server is stopped. -/
theorem registry_in_step_stopped :
    let link : Link := ⟨⟨KeyExchangeAlgorithm.identity.descriptor,
      SymmetricAlgorithm.identity.descriptor, 16⟩, ⟨.identity, .zero⟩, ⟨.identity, .zero⟩⟩
    let channel : Channel := .ofLink link 128 .live
    let one : ClientId := .ofNat 1
    let two : ClientId := .ofNat 2
    let s : Server := { new ⟨"", .unencrypted, .standard, 16⟩ .empty (fun _ => 0) with
      isRunning := true }
    let moves : List Move := [.accept one channel, .accept one channel, .accept two channel] ++
      [1, 0, 2, 1, 1, 2, 2, 0].map Move.task ++ [.call (.disconnect one), .close 2, .stop] ++
      [5, 5, 3, 3, 5, 3, 5, 3, 3, 4, 4, 6, 6, 4, 6, 6, 4, 4].map Move.task
    s.Idle ∧ s.isFresh moves = true ∧ ∃ s', s.follow moves = some s' ∧ s'.AtRest ∧
      s'.events = [.connected one, .connected two, .disconnected one, .disconnected two] ∧
      s'.registry.entries = [] ∧ ∀ session ∈ s'.sessions, session.isConnected = false := by
  intro link channel one two s moves
  have hrun : (s.follow moves).map (fun s' =>
      (decide s'.AtRest, s'.isRunning, s'.events)) =
      some (true, false, [.connected one, .connected two, .disconnected one,
        .disconnected two]) := by
    decide +kernel
  have hidle : s.Idle := ⟨rfl, rfl, rfl, rfl⟩
  have hfresh : s.isFresh moves = true := by decide +kernel
  obtain ⟨s', hfollow, hs'⟩ := Option.map_eq_some_iff.mp hrun
  simp only [Prod.mk.injEq, decide_eq_true_eq] at hs'
  obtain ⟨hrest, hstopped, hevents⟩ := hs'
  obtain ⟨-, -, -, hall⟩ := registry_in_step hidle hfresh hfollow
  obtain ⟨-, -, -, hnobody⟩ := hall hrest
  exact ⟨hidle, hfresh, s', hfollow, hrest, hevents, hnobody hstopped⟩

end CipherLink.Server
