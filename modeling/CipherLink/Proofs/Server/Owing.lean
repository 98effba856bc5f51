import CipherLink.Proofs.Server.Relaying

/-!
# Texts that are owed

Along a run the texts that a client was sent and those that it is still owed are the
copies of what was read, in the order of the reads.
-/

namespace CipherLink.Server

variable {s s' t : Server} {left left' : Task} {h : Handle} {moves : List Move}

/-- The texts that a client has still to be sent. -/
def owed (s : Server) (left : Task) (h : Handle) : List Message :=
  left.flatMap (Action.textsTo h) ++ s.queue.flatMap Command.texts

/-- What becomes of a client that stays: what it is sent is taken from the front of what
it is owed, and what is `heard` comes in behind. -/
def Passes (s : Server) (left : Task) (s' : Server) (left' : Task) (heard : List Message)
    (h : Handle) : Prop :=
  ∀ old new, s.sessions[h]? = some old → s'.sessions[h]? = some new →
    s.Served h old new (s.owed left h) →
    ∃ parcels, old.channel.writer.Writes parcels new.channel.writer ∧
      textsIn parcels ++ s'.owed left' h = s.owed left h ++ heard

theorem getElem?_set_append {tasks started : List Task} {index i : Nat} {task found : Task}
    (hfound : (tasks.set index task ++ started)[i]? = some found) :
    (i = index ∧ found = task) ∨ (i ≠ index ∧ tasks[i]? = some found) ∨ found ∈ started := by
  by_cases hlt : i < tasks.length
  · rw [List.getElem?_append_left (by rwa [List.length_set])] at hfound
    by_cases hi : i = index
    · subst hi
      rw [List.getElem?_set_self hlt, Option.some.injEq] at hfound
      exact .inl ⟨rfl, hfound.symm⟩
    · rw [List.getElem?_set_ne (Ne.symm hi)] at hfound
      exact .inr (.inl ⟨hi, hfound⟩)
  · rw [List.getElem?_append_right (by rw [List.length_set]; omega)] at hfound
    exact .inr (.inr (List.mem_of_getElem? hfound))

theorem Taken.started_plain {a : Action} {next : Task} {started : List Task}
    (htaken : s.Taken a next started t) : ∀ task ∈ started, ∀ b ∈ task, b.isPlain = true := by
  obtain rfl | ⟨h', session, -, -, rfl⟩ := htaken.starts <;> simp [Action.isPlain]

section

variable {index w : Nat} {a : Action} {next rest : Task} {started before after : List Task}

theorem Relaying.turn_worker (hs : s.Relaying left)
    (hworker : s.tasks[w]? = some (left ++ [.takeCommand]))
    (hothers : ∀ (i : Nat) (task : Task), i ≠ w → s.tasks[i]? = some task →
      ∀ a ∈ task, a.isPlain = true)
    (htask : s.tasks[w]? = some (a :: rest))
    (htasks : s'.tasks = s.tasks.set w (next ++ rest) ++ started)
    (hturn : s.Turn a next rest started before after s') :
    ∃ left', s'.Relaying left' ∧ ∀ h, s.Passes left s' left' [] h := by
  obtain ⟨t, htaken, hsame⟩ := hturn.taken
  obtain ⟨-, -, hsubscriptions, hqueue⟩ := htaken.steady
  have howned : ∀ (id : ClientId) (h : Handle), (id, h) ∈ s'.registry.entries →
      ∃ session, s'.sessions[h]? = some session ∧ session.id = id :=
    fun _ _ => hturn.owned hs.owned
  have hhandlers : s'.subscriptions.Relays := by
    rw [hsame, hsubscriptions]
    exact hs.handlers
  have hsessions : s'.sessions = t.sessions := by rw [hsame]
  have hlt := (List.getElem?_eq_some_iff.mp htask).1
  have hw : s'.tasks[w]? = some (next ++ rest) := by
    rw [htasks, List.getElem?_append_left (by rwa [List.length_set]), List.getElem?_set_self hlt]
  have hothers' : ∀ (i : Nat) (task : Task), i ≠ w → s'.tasks[i]? = some task →
      ∀ a ∈ task, a.isPlain = true := by
    intro i task hi hget
    rw [htasks] at hget
    obtain ⟨hi', -⟩ | ⟨-, hget⟩ | hmem := getElem?_set_append hget
    · exact absurd hi' hi
    · exact hothers i task hi hget
    · exact htaken.started_plain task hmem
  rw [htask, Option.some.injEq] at hworker
  cases left with
  | nil =>
    -- Back at the queue: the next command moves from the queue into the task.
    obtain ⟨rfl, rfl⟩ := List.cons.inj hworker
    cases htaken with
    | @fetches c queue hcommands =>
      have hqueue' : s'.queue = queue := by rw [hsame]
      have hleft := hs.queue
      rw [hcommands] at hleft
      refine ⟨[.command c], ⟨howned, hhandlers, ⟨w, hw, hothers'⟩, ?_, ?_⟩, ?_⟩
      · simpa using hleft c List.mem_cons_self
      · intro c' hc'
        rw [hqueue'] at hc'
        exact hleft c' (List.mem_cons_of_mem c hc')
      · intro h old new hold hnew _
        rw [hsessions, hold, Option.some.injEq] at hnew
        refine ⟨[], hnew ▸ FrameWriter.writes_nil _, ?_⟩
        simp [textsIn, owed, hqueue', hcommands, Action.textsTo]
  | cons b left =>
    obtain ⟨rfl, rfl⟩ := List.cons.inj hworker
    have ha := hs.left a List.mem_cons_self
    have hne : a ≠ .takeCommand := by
      rintro rfl
      simp [Action.isRelayed] at ha
    have hqueue' : s'.queue = s.queue := by rw [hsame, hqueue hne]
    refine ⟨next ++ left, ⟨howned, hhandlers, ⟨w, ?_, hothers'⟩, ?_, hqueue' ▸ hs.queue⟩, ?_⟩
    · rw [hw, List.append_assoc]
      rfl
    · intro b hb
      obtain hb | hb := List.mem_append.mp hb
      · exact Action.isRelayed_of_leadsTo ha (htaken.leadsTo b hb)
      · exact hs.left b (List.mem_cons_of_mem a hb)
    · intro h old new hold hnew hserved
      rw [hsessions] at hnew
      obtain ⟨parcels, hwrites, htexts⟩ := htaken.relayed hs ha hold hnew
        { hserved with
          fits := fun text htext => hserved.fits text (by
            rw [owed, List.flatMap_cons]
            simp [htext]) }
      refine ⟨parcels, hwrites, ?_⟩
      rw [owed, owed, hqueue', List.flatMap_append, List.flatMap_cons, ← htexts]
      simp

theorem Relaying.turn_other (hs : s.Relaying left)
    (hworker : s.tasks[w]? = some (left ++ [.takeCommand]))
    (hothers : ∀ (i : Nat) (task : Task), i ≠ w → s.tasks[i]? = some task →
      ∀ a ∈ task, a.isPlain = true)
    (hindex : index ≠ w) (htask : s.tasks[index]? = some (a :: rest))
    (htasks : s'.tasks = s.tasks.set index (next ++ rest) ++ started)
    (hturn : s.Turn a next rest started before after s') :
    s'.Relaying left ∧ ∀ h, s.Passes left s' left [] h := by
  obtain ⟨t, htaken, hsame⟩ := hturn.taken
  obtain ⟨-, -, hsubscriptions, hqueue⟩ := htaken.steady
  have hplain := hothers index _ hindex htask
  have ha := hplain a List.mem_cons_self
  have hne : a ≠ .takeCommand := by
    rintro rfl
    simp [Action.isPlain] at ha
  have hqueue' : s'.queue = s.queue := by rw [hsame, hqueue hne]
  refine ⟨⟨fun id h => hturn.owned hs.owned, ?_, ⟨w, ?_, ?_⟩, hs.left, hqueue' ▸ hs.queue⟩, ?_⟩
  · rw [hsame, hsubscriptions]
    exact hs.handlers
  · have hlt := (List.getElem?_eq_some_iff.mp hworker).1
    rw [htasks, List.getElem?_append_left (by rwa [List.length_set]), List.getElem?_set_ne hindex,
      hworker]
  · intro i task hi hget
    rw [htasks] at hget
    obtain ⟨-, rfl⟩ | ⟨-, hget⟩ | hmem := getElem?_set_append hget
    · intro b hb
      obtain hb | hb := List.mem_append.mp hb
      · exact Action.isPlain_of_leadsTo ha (htaken.leadsTo b hb)
      · exact hplain b (List.mem_cons_of_mem a hb)
    · exact hothers i task hi hget
    · exact htaken.started_plain task hmem
  · intro h old new hold hnew hserved
    have hnew' : t.sessions[h]? = some new := by
      rw [hsame] at hnew
      exact hnew
    obtain ⟨⟨parcels, hwrites, hnone⟩, -⟩ :=
      htaken.plain ha hold hnew' hserved.isWritable
    refine ⟨parcels, hwrites, ?_⟩
    rw [hnone, owed, owed, hqueue']
    simp

theorem Relaying.turn (hs : s.Relaying left) (hstep : s.stepTask? index = some s') :
    ∃ left', s'.Relaying left' ∧ ∀ h, s.Passes left s' left' [] h := by
  obtain ⟨a, next, rest, started, before, after, htask, htasks, hturn⟩ := exists_turn hstep
  obtain ⟨w, hworker, hothers⟩ := hs.worker
  by_cases hindex : index = w
  · subst hindex
    exact hs.turn_worker hworker hothers htask htasks hturn
  · exact ⟨left, hs.turn_other hworker hothers hindex htask htasks hturn⟩

end

theorem Relaying.grows (hs : s.Relaying left) (added : List Task) (more : List Command)
    (registry : s'.registry = s.registry)
    (owned : ∀ (h : Handle) (session : Session), s.sessions[h]? = some session →
      ∃ next, s'.sessions[h]? = some next ∧ next.id = session.id)
    (writers : ∀ (h : Handle) (old new : Session), s.sessions[h]? = some old →
      s'.sessions[h]? = some new → new.isConnected = true →
      new.channel.writer = old.channel.writer)
    (handlers : s'.subscriptions.Relays) (tasks : s'.tasks = s.tasks ++ added)
    (plain : ∀ task ∈ added, ∀ a ∈ task, a.isPlain = true) (queue : s'.queue = s.queue ++ more)
    (relayed : ∀ c ∈ more, (Action.command c).isRelayed = true) :
    s'.Relaying left ∧ ∀ h, s.Passes left s' left (more.flatMap Command.texts) h := by
  obtain ⟨w, hworker, hothers⟩ := hs.worker
  refine ⟨⟨?_, handlers, ⟨w, ?_, ?_⟩, hs.left, ?_⟩, ?_⟩
  · intro id h hmem
    rw [registry] at hmem
    obtain ⟨session, hsession, rfl⟩ := hs.owned id h hmem
    exact owned h session hsession
  · rw [tasks, getElem?_append_of_some hworker]
  · intro i task hi hget
    rw [tasks] at hget
    by_cases hlt : i < s.tasks.length
    · rw [List.getElem?_append_left hlt] at hget
      exact hothers i task hi hget
    · rw [List.getElem?_append_right (Nat.le_of_not_lt hlt)] at hget
      exact plain task (List.mem_of_getElem? hget)
  · intro c hc
    rw [queue] at hc
    exact (List.mem_append.mp hc).elim (hs.queue c) (relayed c)
  · intro h old new hold hnew hserved
    have hwriter := writers h old new hold hnew (writable_iff.mp hserved.isWritable).1
    refine ⟨[], hwriter ▸ FrameWriter.writes_nil _, ?_⟩
    rw [owed, owed, queue, List.flatMap_append]
    simp [textsIn]

theorem flatMap_queued (message : Message) (delivery : Delivery) (handlers : List ServerHandler) :
    (handlers.flatMap (ServerHandler.queued message delivery)).flatMap Command.texts =
      (List.replicate (handlers.count .relayText) (message.stamped delivery.connection)).filter
        Message.isText := by
  induction handlers with
  | nil => rfl
  | cons handler handlers ih =>
    rw [List.flatMap_cons, List.flatMap_append, ih]
    cases handler with
    | relayText =>
      rw [List.count_cons_self, List.replicate_succ, ← List.singleton_append, List.filter_append]
      simp [ServerHandler.queued, Command.texts, Command.message?]
    | note ordinal | answer reply | relayExit =>
      rw [List.count_cons_of_ne (by simp)]
      rfl

theorem flatMap_reactions (hrelays : s.subscriptions.Relays) {session : Session}
    (hsession : s.sessions[h]? = some session) :
    (s.reactions ServerHandler.queued session.read.1).flatMap Command.texts =
      ((s.heard? (.read h)).toList).filterMap Hearing.copy? := by
  rw [heard?, hsession, Option.bind_some]
  cases session.read.1 with
  | nothing | waiting => rfl
  | message message delivery =>
    rw [reactions, flatMap_queued]
    by_cases htext : message.isText = true
    · have hkey : message.key = MessageKey.text := by simpa [Message.isText] using htext
      have hstamped : (message.stamped delivery.connection).isText = true := htext
      rw [hkey, hrelays.1]
      simp [Session.Heard.hearing?, Hearing.copy?, htext, hstamped]
    · have hstamped : ¬(message.stamped delivery.connection).isText = true := htext
      simp [Session.Heard.hearing?, Hearing.copy?, htext, hstamped]

theorem writer_set {session next : Session} {h' : Handle}
    (hsession : s.sessions[h']? = some session)
    (hwriter : next.isConnected = true → next.channel.writer = session.channel.writer)
    {old new : Session} (hold : s.sessions[h]? = some old)
    (hnew : (s.sessions.set h' next)[h]? = some new) (hconnected : new.isConnected = true) :
    new.channel.writer = old.channel.writer := by
  by_cases hh : h' = h
  · subst hh
    rw [List.getElem?_set_self (List.getElem?_eq_some_iff.mp hsession).1, Option.some.injEq] at hnew
    rw [hsession, Option.some.injEq] at hold
    subst hold hnew
    exact hwriter hconnected
  · rw [List.getElem?_set_ne hh, hold, Option.some.injEq] at hnew
    rw [hnew]

theorem Relaying.read (hs : s.Relaying left) {session : Session}
    (hsession : s.sessions[h]? = some session) :
    (s.read h).2.Relaying left ∧ ∀ h', s.Passes left (s.read h).2 left
      (((s.heard? (.read h)).toList).filterMap Hearing.copy?) h' := by
  obtain ⟨notes, hread⟩ := read_eq hsession
  have hkept := Session.kept_set hsession session.read_keeps.1 session.read_keeps.2
  rw [hread, ← flatMap_reactions hs.handlers hsession]
  refine hs.grows _ _ rfl (fun _ _ hold => hkept.exists_id hold) ?_ hs.handlers rfl ?_ rfl ?_
  · intro h' old new hold hnew hconnected
    exact writer_set hsession (fun _ => session.read_writer) hold hnew hconnected
  · intro task htask a ha
    obtain ⟨c, hc, rfl⟩ := List.mem_map.mp htask
    rw [List.mem_singleton.mp ha]
    cases hheard : session.read.1 with
    | nothing | waiting => simp [hheard, reactions] at hc
    | message message delivery =>
      rw [hheard, reactions] at hc
      obtain ⟨handler, hmem, hc⟩ := List.mem_flatMap.mp hc
      rcases handler with ordinal | (_ | key) | _ | _ <;> simp [ServerHandler.called] at hc
      · rw [hc]
        rfl
      · have hkey := hs.handlers.2 _ _ hmem
        simpa [hc, Action.isPlain, Message.isText] using hkey
  · intro c hc
    cases hheard : session.read.1 with
    | nothing | waiting => simp [hheard, reactions] at hc
    | message message delivery =>
      rw [hheard, reactions] at hc
      obtain ⟨handler, -, hc⟩ := List.mem_flatMap.mp hc
      rcases handler with ordinal | (_ | key) | _ | _ <;> simp [ServerHandler.queued] at hc <;>
        rw [hc] <;> rfl

theorem Relaying.spawns (hs : s.Relaying left) (added : List Task)
    (handlers : s'.subscriptions.Relays) (plain : ∀ task ∈ added, ∀ a ∈ task, a.isPlain = true)
    (registry : s'.registry = s.registry) (sessions : s'.sessions = s.sessions)
    (tasks : s'.tasks = s.tasks ++ added) (queue : s'.queue = s.queue) :
    s'.Relaying left ∧ ∀ h, s.Passes left s' left [] h := by
  refine hs.grows added [] registry ?_ ?_ handlers tasks plain
    (queue.trans (List.append_nil _).symm) (by simp)
  · intro h session hsession
    exact ⟨session, sessions ▸ hsession, rfl⟩
  · intro h old new hold hnew _
    rw [sessions, hold, Option.some.injEq] at hnew
    rw [hnew]

theorem Relaying.same (hs : s.Relaying left) :
    s.Relaying left ∧ ∀ h, s.Passes left s left [] h :=
  hs.spawns [] hs.handlers (by simp) rfl rfl (List.append_nil _).symm rfl

theorem Relaying.setSession {session next : Session} {h' : Handle} (hs : s.Relaying left)
    (hsession : s.sessions[h']? = some session) (hid : next.id = session.id)
    (hconnected : next.isConnected = true → session.isConnected = true)
    (hwriter : next.isConnected = true → next.channel.writer = session.channel.writer) :
    (s.setSession h' next).Relaying left ∧
      ∀ h, s.Passes left (s.setSession h' next) left [] h := by
  have hkept := Session.kept_set hsession hid hconnected
  refine hs.grows [] [] rfl ?_ ?_ hs.handlers (List.append_nil _).symm (by simp)
    (List.append_nil _).symm (by simp)
  · intro h old hold
    exact hkept.exists_id hold
  · intro h old new hold hnew hstays
    exact writer_set hsession hwriter hold hnew hstays

theorem Relaying.accept (hs : s.Relaying left) {id : ClientId} {channel : Channel}
    (haccept : s.accept id channel = some s') :
    s'.Relaying left ∧ ∀ h, s.Passes left s' left [] h := by
  obtain rfl | ⟨-, session, noise, -, rfl⟩ := accept_cases haccept
  · exact hs.same
  · refine hs.grows [[.register s.sessions.length]] [] rfl ?_ ?_ hs.handlers rfl
      (by simp [Action.isPlain]) (List.append_nil _).symm (by simp)
    · intro h old hold
      exact ⟨old, getElem?_append_of_some hold _, rfl⟩
    · intro h old new hold hnew _
      rw [getElem?_append_of_some hold, Option.some.injEq] at hnew
      rw [hnew]

theorem Relaying.move {m : Move} (hs : s.Relaying left) (hspares : m.SparesTexts)
    (hmove : s.move m = some s') :
    ∃ left', s'.Relaying left' ∧
      ∀ h, s.Passes left s' left' (((s.heard? m).toList).filterMap Hearing.copy?) h := by
  cases m with
  | accept id channel => exact ⟨left, hs.accept hmove⟩
  | stream h' change =>
    cases hmove
    refine ⟨left, ?_⟩
    rw [Server.stream]
    split
    · next session hsession => exact hs.setSession hsession rfl id fun _ => rfl
    · exact hs.same
  | read h' =>
    cases hmove
    refine ⟨left, ?_⟩
    cases hsession : s.sessions[h']? with
    | none =>
      simp only [Server.read, heard?, hsession, Option.bind_none]
      exact hs.same
    | some session => exact hs.read hsession
  | close h' =>
    cases hmove
    refine ⟨left, ?_⟩
    rw [closeSession]
    split
    · next session hsession =>
      exact hs.setSession hsession rfl (by simp [Session.close]) (by simp [Session.close])
    · exact hs.same
  | call c =>
    cases hmove
    refine ⟨left, hs.spawns [[.command c]] hs.handlers ?_ rfl rfl rfl rfl⟩
    intro task htask a ha
    rw [List.mem_singleton.mp htask, List.mem_singleton] at ha
    subst ha
    cases c with
    | disconnect id => rfl
    | broadcast message | sendTo message targets =>
      simpa [Move.SparesTexts, Action.isPlain] using hspares
  | subscribe change =>
    cases hmove
    exact ⟨left, hs.spawns [] (hspares _ hs.handlers) (by simp) rfl rfl (List.append_nil _).symm
      rfl⟩
  | relay => exact absurd hspares id
  | stop =>
    cases hmove
    refine ⟨left, ?_⟩
    rw [beginStop]
    split
    · exact hs.spawns [[.awaitAdmissions, .closeAll]] hs.handlers (by simp [Action.isPlain]) rfl
        rfl rfl rfl
    · exact hs.same
  | task index => exact hs.turn hmove

theorem serves_iff {id : ClientId} : s.serves id h = true ↔ (id, h) ∈ s.registry.entries ∧
    ∃ session, s.sessions[h]? = some session ∧ session.isWritable = true := by
  rw [serves, Bool.and_eq_true, List.contains_iff_mem, Option.any_eq_true]

theorem serves_of_stays {id : ClientId} (hstays : s.stays id h moves = true) :
    s.serves id h = true := by
  cases moves with
  | nil => exact hstays
  | cons m moves =>
    rw [stays, Bool.and_eq_true] at hstays
    exact hstays.1

theorem Relaying.follow {id : ClientId} {old : Session} (hs : s.Relaying left)
    (hspares : ∀ m ∈ moves, m.SparesTexts) (hrun : s.follow moves = some s')
    (hstays : s.stays id h moves = true) (hold : s.sessions[h]? = some old)
    (hregular : old.channel.writer.Regular)
    (hfits : ∀ text ∈ s.owed left h ++ s.copies moves, old.channel.writer.Fits text) :
    ∃ left' new parcels, s'.Relaying left' ∧ s'.sessions[h]? = some new ∧
      old.channel.writer.Writes parcels new.channel.writer ∧
      textsIn parcels ++ s'.owed left' h = s.owed left h ++ s.copies moves := by
  -- What was sent and what is owed come to the same texts at every point of the run.
  induction moves generalizing s left old with
  | nil =>
    cases hrun
    exact ⟨left, old, [], hs, hold, FrameWriter.writes_nil _, by simp [textsIn, copies, heard]⟩
  | cons m moves ih =>
    obtain ⟨next, hmove, hrest⟩ := Option.bind_eq_some_iff.mp hrun
    obtain ⟨left₁, hnext, hpasses⟩ := hs.move (hspares m List.mem_cons_self) hmove
    have hcopies : s.copies (m :: moves) =
        ((s.heard? m).toList).filterMap Hearing.copy? ++ next.copies moves := by
      simp only [copies, heard, hmove, List.filterMap_append]
    simp only [stays, hmove, Bool.and_eq_true] at hstays
    obtain ⟨hserves, hstays'⟩ := hstays
    obtain ⟨hregistered, session, hsession, hwas⟩ := serves_iff.mp hserves
    rw [hold, Option.some.injEq] at hsession
    subst hsession
    obtain ⟨-, middle, hmiddle, hwritable⟩ := serves_iff.mp (serves_of_stays hstays')
    obtain ⟨parcels, hwrites, howed⟩ := hpasses h old middle hold hmiddle
      ⟨⟨id, hregistered⟩, hregular, hwas, hwritable,
        fun text htext => hfits text (List.mem_append_left _ htext)⟩
    obtain ⟨left', new, others, hlast, hnew, hothers, howed'⟩ :=
      ih hnext (fun m hm => hspares m (List.mem_cons_of_mem _ hm)) hrest hstays' hmiddle
        (hwrites.regular hregular) (by
          intro text htext
          rw [hwrites.fits_iff]
          refine hfits text ?_
          rw [hcopies, ← List.append_assoc, ← howed, List.append_assoc]
          exact List.mem_append_right _ htext)
    refine ⟨left', new, parcels ++ others, hlast, hnew, hwrites.append hothers, ?_⟩
    rw [textsIn_append, List.append_assoc, howed', hcopies, ← List.append_assoc, howed,
      List.append_assoc]

theorem Relaying.workedOff (hs : s.Relaying left) (hoff : s.workedOff = true) :
    left = [] ∧ s.queue = [] := by
  rw [Server.workedOff, Bool.and_eq_true, List.isEmpty_iff, List.contains_iff_mem] at hoff
  obtain ⟨hqueue, hmem⟩ := hoff
  refine ⟨?_, hqueue⟩
  obtain ⟨w, hworker, hothers⟩ := hs.worker
  obtain ⟨i, hi⟩ := List.mem_iff_getElem?.mp hmem
  by_cases hw : i = w
  · subst hw
    rwa [hworker, Option.some.injEq, List.append_left_eq_self] at hi
  · have hplain := hothers i _ hw hi .takeCommand (List.mem_singleton_self _)
    simp [Action.isPlain] at hplain

theorem Relaying.along (hs : s.Relaying left) (hspares : ∀ m ∈ moves, m.SparesTexts)
    (hrun : s.follow moves = some s') : ∃ left', s'.Relaying left' := by
  refine follow_keeps (P := fun t => ∃ left', t.Relaying left') ⟨left, hs⟩ ?_ hrun
  rintro s s' m hm ⟨left, hs⟩ hmove
  obtain ⟨left', hs', -⟩ := hs.move (hspares m hm) hmove
  exact ⟨left', hs'⟩

end CipherLink.Server
