import CipherLink.Frame.Steps
import CipherLink.Proofs.Server.Hearings

/-!
# Relays

A relay passes each text on to every client that stays, once and in the order in which
the texts were read, with the id of the connection it came from. So all clients read
the same texts in the same order, and those of one sender in the order of its own.
-/

namespace CipherLink.Server

variable {s s' t : Server} {moves : List Move}

theorem heard_append {before after : List Move} (h : s.follow before = some t) :
    s.heard (before ++ after) = s.heard before ++ t.heard after := by
  induction before generalizing s with
  | nil =>
    cases h
    rfl
  | cons m before ih =>
    obtain ⟨next, hmove, hrest⟩ := Option.bind_eq_some_iff.mp h
    simp only [List.cons_append, heard, hmove, ih hrest, List.append_assoc]

theorem exists_topic_of_snapshot {subscriptions : Subscriptions ServerHandler} {key : MessageKey}
    {handler : ServerHandler} (hmem : handler ∈ subscriptions.snapshot key) :
    ∃ topic ∈ subscriptions.topics, handler ∈ topic.handlers.map Prod.snd := by
  obtain ⟨entry, hentry, rfl⟩ := List.mem_map.mp hmem
  obtain ⟨topic, htopic, hkept⟩ := Subscriptions.exists_topic_of_under hentry
  exact ⟨topic, htopic, List.mem_map_of_mem hkept⟩

theorem relays_install (s : Server) (hnone : s.subscriptions = .empty) :
    (Relay.install s).2.subscriptions.Relays := by
  have htopics : (Relay.install s).2.subscriptions.topics =
      [⟨MessageKey.text, [(1, .relayText)]⟩, ⟨MessageKey.exit, [(2, .relayExit)]⟩] := by
    simp only [Relay.install, spawn, hnone]
    rfl
  refine ⟨?_, ?_⟩
  · rw [Subscriptions.snapshot, Subscriptions.under, htopics]
    decide
  · intro key reply hmem
    obtain ⟨topic, htopic, hhandler⟩ := exists_topic_of_snapshot hmem
    rw [htopics] at htopic
    simp only [List.mem_cons, List.not_mem_nil, or_false] at htopic
    obtain rfl | rfl := htopic <;> simp at hhandler

theorem relaying_install {config : ServerConfig} {files : KeyFiles} {noise : Noise}
    {address : String} (hstart : (new config files noise).start address = .ok s) :
    (Relay.install s).2.Relaying [] := by
  simp only [start, new, Bool.false_eq_true, if_false] at hstart
  split at hstart <;> cases hstart
  refine ⟨nofun, relays_install _ rfl, ⟨0, rfl, ?_⟩, nofun, nofun⟩
  intro index task hindex htask
  have hlt := (List.getElem?_eq_some_iff.mp htask).1
  simp only [Relay.install, spawn, List.nil_append, List.length_singleton] at hlt
  omega

/-- A relay on a server that was just started is at the start again whenever it has
worked off its queue. -/
theorem relaying_of_run {config : ServerConfig} {files : KeyFiles} {noise : Noise}
    {address : String} (hstart : (new config files noise).start address = .ok t)
    (hspares : ∀ m ∈ moves, m.SparesTexts) (hrun : (Relay.install t).2.follow moves = some s)
    (hoff : s.workedOff = true) : s.Relaying [] ∧ s.queue = [] := by
  obtain ⟨left, hs⟩ := (relaying_install hstart).along hspares hrun
  obtain ⟨rfl, hqueue⟩ := hs.workedOff hoff
  exact ⟨hs, hqueue⟩

/-- However the moves of clients, of the relay and of the server interleave: each client
that stays reads the copies of the texts that were read, in the order in which they were
read, as far as the relay has come; all of them once the queue is worked off. A copy has
the id of the connection its text came from, and what is read from one client is a front
of what it sends. -/
theorem relay_keeps_order (hs : s.Relaying []) (hqueue : s.queue = [])
    (hspares : ∀ m ∈ moves, m.SparesTexts) (hrun : s.follow moves = some s') :
    (∀ id h old, s.stays id h moves = true → s.sessions[h]? = some old →
      old.channel.writer.Regular → (∀ copy ∈ s.copies moves, old.channel.writer.Fits copy) →
      ∃ new bytes outcomes, s'.sessions[h]? = some new ∧
        new.channel.writer.sink.taken = old.channel.writer.sink.taken ++ bytes ∧
        (∀ limit source, Source.Delivers source bytes .live →
          (old.channel.writer.limit ≤ limit ∨ ∀ message ∈ outcomes.filterMap ReadOutcome.message?,
            (Recorded.encode message).length ≤ limit) →
          (FrameReader.ofPeer old.channel.writer.encryptor old.channel.writer.block limit .records
            source).Hears outcomes) ∧
        (outcomes.filterMap ReadOutcome.message?).filter Message.isText <+: s.copies moves ∧
        (s'.workedOff = true →
          (outcomes.filterMap ReadOutcome.message?).filter Message.isText = s.copies moves)) ∧
    (∀ x ∈ s.heard moves, ∃ session, s'.sessions[x.handle]? = some session ∧
      x.delivery.connection = session.id) ∧
    (∀ before after t h messages, moves = before ++ after → s.follow before = some t →
      t.Sends h after messages → s.heard moves = s.heard before ++ t.heard after ∧
        ((t.heard after).filter fun x => x.handle == h).map Hearing.message <+: messages) := by
  refine ⟨?_, ?_, ?_⟩
  · intro id h old hstays hold hregular hfits
    have howed : s.owed [] h = [] := by
      rw [owed, hqueue]
      rfl
    -- Nothing is owed at the start, so all that is sent are copies of what is read from now on.
    obtain ⟨left', new, parcels, hs', hnew, hwrites, htexts⟩ :=
      hs.follow hspares hrun hstays hold hregular (by rwa [howed])
    rw [howed, List.nil_append] at htexts
    have hmessages : (parcels.map Parcel.outcome).filterMap ReadOutcome.message? =
        parcels.filterMap Parcel.message? := by
      rw [List.filterMap_map]
      exact List.filterMap_congr fun p _ => p.message?_outcome
    refine ⟨new, Parcel.wire parcels, parcels.map Parcel.outcome, hnew, ?_, ?_, ?_, ?_⟩
    · rw [hwrites.next]
      rfl
    · intro limit source hsource hlimit
      have hpacked := hwrites.packed
      rw [hregular.codec] at hpacked
      have hpacked' : old.channel.writer.encryptor.PacksAll old.channel.writer.block limit .records
          parcels new.channel.writer.encryptor := by
        obtain hle | hwithin := hlimit
        · exact hpacked.mono hle
        · rw [hmessages] at hwithin
          exact hpacked.within hwithin
      exact FrameReader.hears_parcels hpacked' hregular.positive hregular.whole hsource
    · rw [hmessages, ← htexts]
      exact List.prefix_append _ _
    · intro hoff
      obtain ⟨rfl, hqueue'⟩ := hs'.workedOff hoff
      have hnothing : s'.owed [] h = [] := by
        rw [owed, hqueue']
        rfl
      rw [hnothing, List.append_nil] at htexts
      rw [hmessages]
      exact htexts
  · intro x hx
    exact connection_of_heard hrun hx
  · rintro before after t h messages rfl hbefore hsends
    rw [follow_append, hbefore, Option.bind_some] at hrun
    refine ⟨heard_append hbefore, ?_⟩
    obtain ⟨session, t', block, limit, source, arrived, bytes, parcels, last, hsession, hreader,
      hpos, hwhole, hsource, harrive, hfront, hpacked, rfl⟩ := hsends.exists_parcels
    exact heard_prefix hpos hwhole hsession
      (fun _ => ⟨t', source, arrived, hreader, hsource, hfront, hpacked⟩) harrive hrun

/-- Two clients send a text each, the first under a false id; the relay passes on the
second while the first is read. -/
theorem relay_keeps_order_two_clients :
    let link : Link := ⟨⟨KeyExchangeAlgorithm.identity.descriptor,
      SymmetricAlgorithm.identity.descriptor, 16⟩, ⟨.identity, .zero⟩, ⟨.identity, .zero⟩⟩
    let channel : Channel := .ofLink link 128 .live
    let one : ClientId := .ofNat 1
    let two : ClientId := .ofNat 2
    let first : Message := ⟨MessageKey.text, some (.ofNat 9), [1]⟩
    let second : Message := ⟨MessageKey.text, none, [2]⟩
    let frame (message : Message) : Bytes :=
      (channel.writer.frame? (.message message) fun _ => 7).getD []
    let s : Server :=
      { (Relay.install (new ⟨"", .unencrypted, .standard, 16⟩ .empty fun _ => 0)).2 with
        isRunning := true
        sessions := [.start one channel, .start two channel]
        registry := ⟨[(one, 0), (two, 1)], by decide⟩ }
    let moves : List Move := [.stream 0 (Source.arrive (frame first)),
      .stream 1 (Source.arrive (frame second)), .read 1, .task 0, .read 0] ++
      List.replicate 7 (.task 0)
    s.Relaying [] ∧ s.Sends 0 moves [first] ∧ ∃ s', s.follow moves = some s' ∧
      (∀ h ∈ [0, 1], ∃ new bytes outcomes, s'.sessions[h]? = some new ∧
        new.channel.writer.sink.taken = bytes ∧
        (FrameReader.ofPeer channel.writer.encryptor 16 128 .records
          (Source.live.arrive bytes)).Hears outcomes ∧
        (outcomes.filterMap ReadOutcome.message?).filter Message.isText =
          [second.stamped two, first.stamped one]) ∧
      ((s.heard moves).filter fun x => x.handle == 0).map Hearing.message <+: [first] := by
  intro link channel one two first second frame s moves
  have hs : s.Relaying [] := by
    refine ⟨?_, relays_install _ rfl, ⟨0, rfl, ?_⟩, by simp, by rintro _ ⟨⟩⟩
    · intro id h hmem
      simp only [s, List.mem_cons, List.not_mem_nil, or_false, Prod.mk.injEq] at hmem
      obtain ⟨rfl, rfl⟩ | ⟨rfl, rfl⟩ := hmem
      · exact ⟨_, rfl, rfl⟩
      · exact ⟨_, rfl, rfl⟩
    · intro index task hindex htask
      have hlt : index < 1 := (List.getElem?_eq_some_iff.mp htask).1
      omega
  have hregular : channel.writer.Regular := ⟨rfl, by decide, by decide, by decide⟩
  have hspares : ∀ m ∈ moves, m.SparesTexts := by
    simp [moves, Move.SparesTexts]
  have hcopies : s.copies moves = [second.stamped two, first.stamped one] := by
    decide +kernel
  have hfits : ∀ copy ∈ s.copies moves, channel.writer.Fits copy := by
    rw [hcopies]
    intro copy hcopy
    simp only [List.mem_cons, List.not_mem_nil, or_false] at hcopy
    obtain rfl | rfl := hcopy
    · exact ⟨by decide +kernel, by decide +kernel⟩
    · exact ⟨by decide +kernel, by decide +kernel⟩
  have hsends : s.Sends 0 moves [first] := by
    have hfirst : channel.writer.Fits first := ⟨by decide +kernel, by decide +kernel⟩
    obtain ⟨bytes, encryptor, hpack⟩ :=
      FrameWriter.exists_pack hregular rfl hfirst fun _ => 7
    have hframe : frame first = bytes := by
      simp only [frame, FrameWriter.frame?, hpack, Option.getD_some]
    have hcomes := (channel.writer.comes_pack (.message first) fun _ => 7).1
    rw [hpack] at hcomes
    cases hcomes with
    | @packed payload _ _ hpayload _ hlimit hencloses =>
      refine ⟨.start one channel, channel.writer.encryptor, 16, 128, .live, [], bytes ++ [],
        [⟨.message first, bytes⟩], encryptor, rfl, rfl, by decide, by decide, Source.delivers_live,
        ?_, by simp [Parcel.wire], .cons ⟨payload, hpayload, hlimit, hencloses⟩ (.nil _), rfl⟩
      rw [← hframe]
      refine .more _ (.other (by simp) (.other (by simp) (.other (by simp) (.other (by simp) ?_))))
      exact .other (by simp) (.other (by simp) (.other (by simp) (.other (by simp)
        (.other (by simp) (.other (by simp) (.other (by simp) .nil))))))
  have hstays : s.stays one 0 moves = true ∧ s.stays two 1 moves = true := by
    decide +kernel
  have hoff : (s.follow moves).map workedOff = some true := by
    decide +kernel
  obtain ⟨s', hrun, hoff⟩ := Option.map_eq_some_iff.mp hoff
  obtain ⟨hclients, -, hsenders⟩ := relay_keeps_order hs rfl hspares hrun
  obtain ⟨-, hheard⟩ := hsenders [] moves s 0 [first] rfl rfl hsends
  refine ⟨hs, hsends, s', hrun, ?_, hheard⟩
  have hread {id : ClientId} {h : Handle} (hmem : s.sessions[h]? = some (.start id channel))
      (hstays : s.stays id h moves = true) : ∃ new bytes outcomes, s'.sessions[h]? = some new ∧
        new.channel.writer.sink.taken = bytes ∧
        (FrameReader.ofPeer channel.writer.encryptor 16 128 .records
          (Source.live.arrive bytes)).Hears outcomes ∧
        (outcomes.filterMap ReadOutcome.message?).filter Message.isText =
          [second.stamped two, first.stamped one] := by
    obtain ⟨new, bytes, outcomes, hnew, htaken, hhears, -, htexts⟩ :=
      hclients id h _ hstays hmem hregular hfits
    refine ⟨new, bytes, outcomes, hnew, htaken, ?_, (htexts hoff).trans hcopies⟩
    exact hhears 128 _ (Source.delivers_live.arrive bytes) (.inl (Nat.le_refl 128))
  intro h hh
  simp only [List.mem_cons, List.not_mem_nil, or_false] at hh
  obtain rfl | rfl := hh
  · exact hread rfl hstays.1
  · exact hread rfl hstays.2

end CipherLink.Server
