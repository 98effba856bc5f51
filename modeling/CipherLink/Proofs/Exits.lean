import CipherLink.Frame.Steps
import CipherLink.Proofs.Registrations

/-!
# Goodbyes

The read loop of a client runs before the client is registered. So the relay may carry
out the goodbye of a client that nobody knows yet, which it passes over, and the client
is registered for good. Once a client is registered while its goodbye still is to be
carried out, it is not registered any more when the relay has worked off its queue.
-/

namespace CipherLink

def Command.disconnected? : Command → Option ClientId
  | .disconnect id => some id
  | _ => none

namespace Server

def exits (s : Server) : Move → List ClientId
  | .read h =>
    match s.sessions[h]? with
    | some session =>
      (s.reactions ServerHandler.queued session.read.1).filterMap Command.disconnected?
    | none => []
  | _ => []

structure Settled (s : Server) : Prop where
  admitted : ∀ a ∈ s.pending, a.isAdmission = false
  queue : s.queue = []
  relays : ∀ task ∈ s.tasks, .takeCommand ∈ task → task = [.takeCommand]

instance (s : Server) : Decidable s.Settled :=
  decidable_of_iff ((∀ a ∈ s.pending, a.isAdmission = false) ∧ s.queue = [] ∧
      ∀ task ∈ s.tasks, .takeCommand ∈ task → task = [.takeCommand])
    ⟨fun ⟨admitted, queue, relays⟩ => ⟨admitted, queue, relays⟩,
      fun h => ⟨h.admitted, h.queue, h.relays⟩⟩

/-- Whether the relay has still to disconnect a client: the command is in the queue, or
taken from it and not begun. -/
def Dismisses (s : Server) (id : ClientId) : Prop :=
  .disconnect id ∈ s.queue ∨
    ∃ task ∈ s.tasks, .takeCommand ∈ task ∧ .command (.disconnect id) ∈ task

/-- Whether a registered client is about to be removed by the relay, or has left. -/
def Leaving (s : Server) (id : ClientId) : Prop :=
  0 < s.gone id ∨ id ∈ s.registry.ids ∧ (.disconnect id ∈ s.queue ∨
    ∃ task ∈ s.tasks, .takeCommand ∈ task ∧
      (.command (.disconnect id) ∈ task ∨ .check id ∈ task ∨ .remove id ∈ task))

variable {s s' t : Server} {id : ClientId} {m : Move} {moves before after : List Move}

theorem Dismisses.leaving (h : s.Dismisses id) (hregistered : id ∈ s.registry.ids) :
    s.Leaving id := by
  refine .inr ⟨hregistered, ?_⟩
  obtain hqueue | ⟨task, htask, hrelay, hcommand⟩ := h
  · exact .inl hqueue
  · exact .inr ⟨task, htask, hrelay, .inl hcommand⟩

theorem dismisses_of_exits (hexit : id ∈ s.exits m) (hmove : s.move m = some s') :
    s'.Dismisses id ∧ s'.registry = s.registry := by
  cases m with
  | read h =>
    rw [exits] at hexit
    split at hexit
    · next session hsession =>
      obtain ⟨notes, hread⟩ := read_eq hsession
      obtain ⟨c, hc, hid⟩ := List.mem_filterMap.mp hexit
      cases c with
      | disconnect id' =>
        cases hid
        cases hmove
        rw [hread]
        exact ⟨.inl (List.mem_append_right _ hc), rfl⟩
      | broadcast message => simp [Command.disconnected?] at hid
      | sendTo message targets => simp [Command.disconnected?] at hid
    · simp at hexit
  | _ => simp [exits] at hexit

theorem queue_of_move (hmove : s.move m = some s') :
    (∃ index, m = .task index) ∨ s.queue <+: s'.queue := by
  have hsame := List.prefix_refl s.queue
  cases m with
  | accept id channel =>
    right
    obtain rfl | ⟨-, session, noise, -, rfl⟩ := accept_cases hmove <;> exact hsame
  | stream h change =>
    obtain ⟨sessions, hstream, -⟩ := s.stream_eq h change
    rw [move, hstream] at hmove
    cases hmove
    exact .inr hsame
  | read h =>
    right
    rw [move, Option.some.injEq] at hmove
    cases hsession : s.sessions[h]? with
    | none =>
      rw [read, hsession] at hmove
      cases hmove
      exact hsame
    | some session =>
      obtain ⟨notes, hread⟩ := read_eq hsession
      rw [← hmove, hread]
      exact List.prefix_append _ _
  | close h =>
    obtain ⟨sessions, hclose, -⟩ := s.closeSession_eq h
    rw [move, hclose] at hmove
    cases hmove
    exact .inr hsame
  | call c | subscribe change | relay =>
    cases hmove
    exact .inr hsame
  | stop =>
    cases hmove
    right
    rw [beginStop]
    split <;> exact hsame
  | task index => exact .inl ⟨index, rfl⟩

section

variable {a : Action} {next rest : Task} {started front back : List Task} {h : Handle}

theorem Turn.goes_on (hturn : s.Turn a next rest started front back s')
    (hentry : (id, h) ∈ s.registry.entries) (hstays : (id, h) ∈ s'.registry.entries)
    (hsteps : .command (.disconnect id) ∈ a :: rest ∨ .check id ∈ a :: rest ∨
      .remove id ∈ a :: rest) :
    .command (.disconnect id) ∈ next ++ rest ∨ .check id ∈ next ++ rest ∨
      .remove id ∈ next ++ rest := by
  obtain hcommand | hremoves := hsteps
  · obtain rfl | hcommand := List.mem_cons.mp hcommand
    · obtain ⟨t, htaken, -⟩ := hturn.taken
      cases htaken with
      | disconnects => simp
      | passesOver absent => exact absurd absent (Registry.get?_ne_none hentry)
    · exact .inl (List.mem_append_right _ hcommand)
  · exact .inr (hturn.removes hentry hstays hremoves)

theorem Turn.leaving (hturn : s.Turn a next rest started front back s')
    (hentry : (id, h) ∈ s.registry.entries) (hstays : (id, h) ∈ s'.registry.entries)
    (hleaving : .disconnect id ∈ s.queue ∨ ∃ task ∈ s.tasks, .takeCommand ∈ task ∧
      (.command (.disconnect id) ∈ task ∨ .check id ∈ task ∨ .remove id ∈ task)) :
    .disconnect id ∈ s'.queue ∨ ∃ task ∈ s'.tasks, .takeCommand ∈ task ∧
      (.command (.disconnect id) ∈ task ∨ .check id ∈ task ∨ .remove id ∈ task) := by
  obtain ⟨t, htaken, hsame⟩ := hturn.taken
  have hqueue : s'.queue = t.queue := by rw [hsame]
  obtain hmem | ⟨task, htask, hrelay, hsteps⟩ := hleaving
  · by_cases ha : a = .takeCommand
    · subst ha
      cases htaken with
      | @fetches c queue hcommands =>
        rw [hcommands, List.mem_cons] at hmem
        obtain rfl | hmem := hmem
        · right
          refine ⟨_, hturn.next_mem_tasks, ?_, .inl ?_⟩ <;> simp
        · left
          rw [hqueue]
          exact hmem
    · left
      rwa [hqueue, htaken.steady.2.2.2 ha]
  · right
    obtain rfl | htask := hturn.mem_tasks htask
    · refine ⟨_, hturn.next_mem_tasks, ?_, hturn.goes_on hentry hstays hsteps⟩
      obtain rfl | hrelay := List.mem_cons.mp hrelay
      · cases htaken with
        | fetches => simp
      · exact List.mem_append_right _ hrelay
    · exact ⟨task, htask, hrelay, hsteps⟩

end

theorem gone_of_move (hmove : s.move m = some s') (hgone : 0 < s.gone id) : 0 < s'.gone id := by
  obtain ⟨index, a, next, rest, started, front, back, -, -, hturn⟩ | ⟨added, hgrows⟩ :=
    move_cases hmove
  · have htally := hturn.tally id
    omega
  · rwa [hgrows.gone_eq]

theorem Leaving.move (hleaving : s.Leaving id) (hmove : s.move m = some s') :
    s'.Leaving id := by
  obtain hgone | ⟨hregistered, hleaving⟩ := hleaving
  · exact .inl (gone_of_move hmove hgone)
  obtain ⟨⟨id', h⟩, hentry, hid⟩ := List.mem_map.mp hregistered
  obtain rfl : id' = id := hid
  obtain hstays | hgone := entry_of_move hmove (.inl hentry)
  · refine .inr ⟨Registry.mem_ids hstays, ?_⟩
    obtain ⟨index, rfl⟩ | hqueue := queue_of_move hmove
    · obtain ⟨a, next, rest, started, front, back, -, -, hturn⟩ := exists_turn hmove
      exact hturn.leaving hentry hstays hleaving
    · obtain ⟨_, _, _, _, _, _, _, -, -, hturn⟩ | ⟨added, hgrows⟩ := move_cases hmove
      · exact hturn.leaving hentry hstays hleaving
      · obtain hmem | ⟨task, htask, hsteps⟩ := hleaving
        · exact .inl (hqueue.subset hmem)
        · right
          rw [hgrows.tasks]
          exact ⟨task, List.mem_append_left _ htask, hsteps⟩
  · exact .inl hgone

theorem Leaving.gone_of_settled (hleaving : s.Leaving id) (hsettled : s.Settled) :
    0 < s.gone id := by
  obtain hgone | ⟨-, hmem | ⟨task, htask, hrelay, hsteps⟩⟩ := hleaving
  · exact hgone
  · simp [hsettled.queue] at hmem
  · simp [hsettled.relays task htask hrelay] at hsteps

/-- If a client is registered at a moment at which the relay sees its goodbye or has still
to carry it out, it is not registered any more when the relay has worked off its queue. -/
theorem exit_of_registered (hs : s.Idle) (hfresh : s.isFresh (before ++ after) = true)
    (hbefore : s.follow before = some t) (hafter : t.follow after = some s')
    (hregistered : id ∈ t.registry.ids)
    (hexit : t.Dismisses id ∨ ∃ m rest, after = m :: rest ∧ id ∈ t.exits m)
    (hsettled : s'.Settled) : id ∉ s'.registry.ids := by
  rw [isFresh_append hbefore, Bool.and_eq_true] at hfresh
  have hend := (hs.inStep.follow hfresh.1 hbefore).follow hfresh.2 hafter
  apply hend.absent_of_gone
  refine Leaving.gone_of_settled ?_ hsettled
  obtain hdismisses | ⟨m, rest, rfl, hsees⟩ := hexit
  · exact follow_keeps (P := (Leaving · id)) (hdismisses.leaving hregistered)
      (fun _ _ _ _ hleaving hmove => hleaving.move hmove) hafter
  · obtain ⟨u, hmove, hrest⟩ := Option.bind_eq_some_iff.mp hafter
    obtain ⟨hdismisses, hregistry⟩ := dismisses_of_exits hsees hmove
    rw [← hregistry] at hregistered
    exact follow_keeps (P := (Leaving · id)) (hdismisses.leaving hregistered)
      (fun _ _ _ _ hleaving hmove => hleaving.move hmove) hrest

def started : Server :=
  { new ⟨"", .unencrypted, .standard, 16⟩ .empty (fun _ => 0) with isRunning := true }

theorem started_idle : started.Idle := ⟨rfl, rfl, rfl, rfl⟩

/-- The channel of a client that says goodbye at once, and stays on the line. -/
def leaver : Channel :=
  let link : Link := ⟨⟨KeyExchangeAlgorithm.identity.descriptor,
    SymmetricAlgorithm.identity.descriptor, 16⟩, ⟨.identity, .zero⟩, ⟨.identity, .zero⟩⟩
  let goodbye : Message := ⟨MessageKey.exit, none, []⟩
  let frame := (Channel.ofLink link 128 .live).writer.frame? (.message goodbye) fun _ => 7
  .ofLink link 128 (Source.live.arrive (frame.getD []))

/-- The client is registered, then its goodbye is heard and carried out. -/
theorem exit_of_registered_in_turn :
    let before : List Move := [.relay, .accept (.ofNat 1) leaver, .task 1, .task 1, .task 1]
    let after : List Move := .read 0 :: [0, 0, 0, 0, 0, 0, 0].map Move.task
    ∃ t s', started.follow before = some t ∧ .ofNat 1 ∈ t.exits (.read 0) ∧
      .ofNat 1 ∈ t.registry.ids ∧ t.follow after = some s' ∧ s'.Settled ∧
      .ofNat 1 ∉ s'.registry.ids := by
  intro before after
  have hfresh : started.isFresh (before ++ after) = true := by decide +kernel
  have hfirst : (started.follow before).map (fun t =>
      (t.exits (.read 0), t.registry.ids, (t.follow after).map fun s' => decide s'.Settled)) =
      some ([.ofNat 1], [.ofNat 1], some true) := by
    decide +kernel
  obtain ⟨t, hbefore, ht⟩ := Option.map_eq_some_iff.mp hfirst
  simp only [Prod.mk.injEq] at ht
  obtain ⟨hexits, hids, hlast⟩ := ht
  obtain ⟨s', hafter, hsettled⟩ := Option.map_eq_some_iff.mp hlast
  rw [decide_eq_true_eq] at hsettled
  have hexit : .ofNat 1 ∈ t.exits (.read 0) := hexits ▸ List.mem_singleton_self _
  have hregistered : .ofNat 1 ∈ t.registry.ids := hids ▸ List.mem_singleton_self _
  exact ⟨t, s', hbefore, hexit, hregistered, hafter, hsettled,
    exit_of_registered started_idle hfresh hbefore hafter hregistered
      (.inr ⟨.read 0, _, rfl, hexit⟩) hsettled⟩

/-- The goodbye is heard and passed over before the client is registered: when nothing is
left to do, the client is there to stay. -/
theorem exit_lost :
    let before : List Move := [.relay, .accept (.ofNat 1) leaver]
    let after : List Move := .read 0 :: [0, 0, 1, 1, 1].map Move.task
    started.Idle ∧ started.isFresh (before ++ after) = true ∧
      ∃ t s', started.follow before = some t ∧ .ofNat 1 ∈ t.exits (.read 0) ∧
        t.follow after = some s' ∧ s'.Settled ∧ s'.AtRest ∧ .ofNat 1 ∈ s'.registry.ids := by
  intro before after
  have hfresh : started.isFresh (before ++ after) = true := by decide +kernel
  have hfirst : (started.follow before).map (fun t => (t.exits (.read 0),
      (t.follow after).map fun s' => (decide s'.Settled, decide s'.AtRest, s'.registry.ids))) =
      some ([.ofNat 1], some (true, true, [.ofNat 1])) := by
    decide +kernel
  obtain ⟨t, hbefore, ht⟩ := Option.map_eq_some_iff.mp hfirst
  simp only [Prod.mk.injEq] at ht
  obtain ⟨hexits, hlast⟩ := ht
  obtain ⟨s', hafter, hs'⟩ := Option.map_eq_some_iff.mp hlast
  simp only [Prod.mk.injEq, decide_eq_true_eq] at hs'
  obtain ⟨hsettled, hrest, hids⟩ := hs'
  exact ⟨started_idle, hfresh, t, s', hbefore, hexits ▸ List.mem_singleton_self _, hafter,
    hsettled, hrest, hids ▸ List.mem_singleton_self _⟩

end Server

end CipherLink
