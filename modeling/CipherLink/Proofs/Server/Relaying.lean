import CipherLink.Proofs.Frame.Parcels
import CipherLink.Proofs.Server.Runs

/-!
# What a relay owes its clients

A text that was read is owed to every client: first as a command in the queue, then
as a command of the relay's task, then as a message that the task has to send. Every
move hands these on in order, and what a client is sent is taken from the front.
-/

namespace CipherLink

def Command.texts (c : Command) : List Message :=
  c.message?.toList.filter Message.isText

def Action.textsTo (h : Handle) : Action → List Message
  | .send message h' => if h' = h then [message].filter Message.isText else []
  | .command c => c.texts
  | _ => []

namespace Action

variable {a b : Action} {h : Handle}

theorem isPlain_of_leadsTo (ha : a.isPlain = true) (hleads : a.leadsTo b) :
    b.isPlain = true := by
  cases a <;> cases b <;> simp_all [isPlain, leadsTo]
  next c message h' => cases c <;> simp_all [Command.message?]

theorem isRelayed_of_leadsTo (ha : a.isRelayed = true) (hleads : a.leadsTo b) :
    b.isRelayed = true := by
  cases a <;> cases b <;> simp_all [isRelayed, leadsTo]

theorem textsTo_eq_nil (ha : a.isPlain = true) : a.textsTo h = [] := by
  cases a with
  | send message h' => simp_all [isPlain, textsTo]
  | command c =>
    cases c <;> simp_all [isPlain, textsTo, Command.texts, Command.message?]
  | _ => rfl

end Action

theorem flatMap_textsTo {handles : List Handle} {h : Handle} (hnodup : handles.Nodup)
    (hmem : h ∈ handles) (message : Message) :
    (handles.map (.send message)).flatMap (Action.textsTo h) =
      [message].filter Message.isText := by
  obtain ⟨before, after, rfl⟩ := List.append_of_mem hmem
  rw [List.nodup_append, List.nodup_cons] at hnodup
  obtain ⟨-, ⟨hafter, -⟩, hbefore⟩ := hnodup
  have hnone {others : List Handle} (habsent : h ∉ others) :
      (others.map (.send message)).flatMap (Action.textsTo h) = [] := by
    rw [List.flatMap_eq_nil_iff]
    intro a ha
    obtain ⟨h', hh', rfl⟩ := List.mem_map.mp ha
    have hne : h' ≠ h := fun heq => habsent (heq ▸ hh')
    simp [Action.textsTo, hne]
  rw [List.map_append, List.map_cons, List.flatMap_append, List.flatMap_cons, hnone hafter,
    hnone fun hmem => hbefore h hmem h List.mem_cons_self rfl]
  simp [Action.textsTo]

namespace Server

variable {s s' t : Server} {a : Action} {next left : Task} {started : List Task} {h : Handle}
  {old new : Session}

theorem handles_nodup (howned : ∀ (id : ClientId) (h : Handle), (id, h) ∈ s.registry.entries →
    ∃ session, s.sessions[h]? = some session ∧ session.id = id) :
    s.registry.handles.Nodup := by
  refine List.Nodup.map_on ?_ (List.Nodup.of_map _ s.registry.distinct)
  rintro ⟨id, h⟩ hmem ⟨id', h'⟩ hmem' rfl
  obtain ⟨session, hsession, rfl⟩ := howned id h hmem
  obtain ⟨session', hsession', rfl⟩ := howned id' h hmem'
  rw [hsession, Option.some.injEq] at hsession'
  rw [hsession']

theorem sendOne_session {message : Message} (hold : s.sessions[h]? = some old)
    (hnew : (s.sendOne message h).sessions[h]? = some new) :
    (∃ result, old.send message s.noise = some (result, new)) ∨
      old.send message s.noise = none ∧ new = old := by
  have hlt := (List.getElem?_eq_some_iff.mp hold).1
  rw [sendOne, hold] at hnew
  split at hnew
  · next hnone => simp at hnone
  · next session hsame =>
    obtain rfl := Option.some.inj hsame
    split at hnew
    · next size next hsend =>
      rw [setSession, List.getElem?_set_self hlt, Option.some.injEq] at hnew
      exact .inl ⟨_, hnew ▸ hsend⟩
    · next cause next hsend =>
      rw [setSession, List.getElem?_set_self hlt, Option.some.injEq] at hnew
      exact .inl ⟨_, hnew ▸ hsend⟩
    · next hsend =>
      rw [hold, Option.some.injEq] at hnew
      exact .inr ⟨hsend, hnew.symm⟩

theorem sendOne_other {message : Message} {h' : Handle} (hne : h' ≠ h) :
    (s.sendOne message h').sessions[h]? = s.sessions[h]? := by
  rw [sendOne]
  split
  · rfl
  · split
    · exact List.getElem?_set_ne hne
    · exact List.getElem?_set_ne hne
    · rfl

theorem closeSession_other {h' : Handle} (hne : h' ≠ h) :
    (s.closeSession h').sessions[h]? = s.sessions[h]? := by
  rw [closeSession]
  split
  · exact List.getElem?_set_ne hne
  · rfl

theorem Taken.session (htaken : s.Taken a next started t) (hold : s.sessions[h]? = some old)
    (hnew : t.sessions[h]? = some new) :
    (new = old ∧ ∀ message, a = .send message h → old.send message s.noise = none) ∨
      a = .close h ∧ new = old.close ∨
      ∃ message result, a = .send message h ∧ old.send message s.noise = some (result, new) := by
  have hsame (heq : t.sessions[h]? = s.sessions[h]?) : new = old := by
    rw [heq, hold, Option.some.injEq] at hnew
    exact hnew.symm
  cases htaken with
  | closes h' =>
    by_cases hh : h' = h
    · subst hh
      simp only [closeSession, hold, setSession] at hnew
      rw [List.getElem?_set_self (List.getElem?_eq_some_iff.mp hold).1, Option.some.injEq] at hnew
      exact .inr (.inl ⟨rfl, hnew.symm⟩)
    · exact .inl ⟨hsame (closeSession_other hh), by simp⟩
  | sends message h' =>
    by_cases hh : h' = h
    · subst hh
      obtain ⟨result, hsend⟩ | ⟨hnone, heq⟩ := sendOne_session hold hnew
      · exact .inr (.inr ⟨message, result, rfl, hsend⟩)
      · refine .inl ⟨heq, ?_⟩
        intro message' hmessage
        cases hmessage
        exact hnone
    · refine .inl ⟨hsame (sendOne_other hh), ?_⟩
      intro message' hmessage
      cases hmessage
      exact absurd rfl hh
  | _ => exact .inl ⟨hsame rfl, by simp⟩

def textsIn (parcels : List Parcel) : List Message :=
  (parcels.filterMap Parcel.message?).filter Message.isText

theorem textsIn_append (parcels others : List Parcel) :
    textsIn (parcels ++ others) = textsIn parcels ++ textsIn others := by
  rw [textsIn, List.filterMap_append, List.filter_append, textsIn, textsIn]

theorem writable_iff : new.isWritable = true ↔
    new.isConnected = true ∧ new.channel.writer.isOpen = true := by
  rw [Session.isWritable, Bool.and_eq_true]

section

variable {message : Message} {noise : Noise} {result : Except SessionError Nat}

theorem send_write (hsend : old.send message noise = some (result, new))
    (hnew : new.isWritable = true) :
    ∃ outcome, old.channel.writer.write message noise = some (outcome, new.channel.writer) := by
  have hconnected := (Session.send_eq_some hsend).2
  rw [(writable_iff.mp hnew).1] at hconnected
  rw [Session.send, if_pos hconnected.symm] at hsend
  obtain ⟨⟨outcome, writer⟩, hwrite, hafter⟩ := Option.map_eq_some_iff.mp hsend
  refine ⟨outcome, ?_⟩
  rw [hwrite]
  cases outcome <;> cases hafter <;> rfl

theorem send_writes (hsend : old.send message noise = some (result, new))
    (hnew : new.isWritable = true) :
    (∃ frame, old.channel.writer.Writes [⟨.message message, frame⟩] new.channel.writer) ∨
      new.channel.writer = old.channel.writer := by
  obtain ⟨outcome, hwrite⟩ := send_write hsend hnew
  exact FrameWriter.write_cases hwrite (writable_iff.mp hnew).2

theorem send_writes_of_fits (hregular : old.channel.writer.Regular)
    (hold : old.isWritable = true) (hfits : old.channel.writer.Fits message) (noise : Noise) :
    old.send message noise ≠ none ∧ ∀ result new, old.send message noise = some (result, new) →
      new.isWritable = true →
      ∃ frame, old.channel.writer.Writes [⟨.message message, frame⟩] new.channel.writer := by
  obtain ⟨hconnected, hopen⟩ := writable_iff.mp hold
  obtain ⟨frame, encryptor, hpack⟩ := FrameWriter.exists_pack hregular hopen hfits noise
  refine ⟨?_, ?_⟩
  · have hperform := (old.channel.writer.comes_pack (.message message) noise).2
    rw [hpack] at hperform
    change old.channel.writer.write message noise = _ at hperform
    rw [Session.send, if_pos hconnected, hperform]
    simp
  · intro result new hsend hnew
    obtain ⟨outcome, hwrite⟩ := send_write hsend hnew
    exact ⟨frame, FrameWriter.writes_of_pack hpack hwrite (writable_iff.mp hnew).2⟩

end

structure Served (s : Server) (h : Handle) (old new : Session) (texts : List Message) : Prop where
  registered : ∃ id, (id, h) ∈ s.registry.entries
  regular : old.channel.writer.Regular
  wasWritable : old.isWritable = true
  isWritable : new.isWritable = true
  fits : ∀ text ∈ texts, old.channel.writer.Fits text

theorem Taken.plain (htaken : s.Taken a next started t) (ha : a.isPlain = true)
    (hold : s.sessions[h]? = some old) (hnew : t.sessions[h]? = some new)
    (hwritable : new.isWritable = true) :
    (∃ parcels, old.channel.writer.Writes parcels new.channel.writer ∧ textsIn parcels = []) ∧
      next.flatMap (Action.textsTo h) = [] := by
  refine ⟨?_, ?_⟩
  · obtain ⟨rfl, -⟩ | ⟨-, rfl⟩ | ⟨message, result, rfl, hsend⟩ := htaken.session hold hnew
    · exact ⟨[], FrameWriter.writes_nil _, rfl⟩
    · exact absurd (writable_iff.mp hwritable).1 nofun
    · obtain ⟨frame, hwrites⟩ | hsame := send_writes hsend hwritable
      · refine ⟨_, hwrites, ?_⟩
        simpa [textsIn, Parcel.message?, Action.isPlain] using ha
      · exact ⟨[], hsame ▸ FrameWriter.writes_nil _, rfl⟩
  · rw [List.flatMap_eq_nil_iff]
    intro b hb
    exact Action.textsTo_eq_nil (Action.isPlain_of_leadsTo ha (htaken.leadsTo b hb))

theorem Taken.relayed (htaken : s.Taken a next started t) (hs : s.Relaying left)
    (ha : a.isRelayed = true) (hold : s.sessions[h]? = some old)
    (hnew : t.sessions[h]? = some new) (hserved : s.Served h old new (a.textsTo h)) :
    ∃ parcels, old.channel.writer.Writes parcels new.channel.writer ∧
      textsIn parcels ++ next.flatMap (Action.textsTo h) = a.textsTo h := by
  by_cases hplain : a.isPlain = true
  · obtain ⟨⟨parcels, hwrites, hnone⟩, hnext⟩ :=
      htaken.plain hplain hold hnew hserved.isWritable
    refine ⟨parcels, hwrites, ?_⟩
    rw [hnone, hnext, Action.textsTo_eq_nil hplain]
    rfl
  · cases a with
    | send message h' =>
      have htext : message.isText = true := by simpa [Action.isPlain] using hplain
      obtain ⟨heq, hnone⟩ | ⟨hclose, -⟩ | ⟨message', result, heq, hsend⟩ :=
        htaken.session hold hnew
      · cases htaken
        by_cases hh : h' = h
        · subst hh
          have hfits := hserved.fits message (by simp [Action.textsTo, htext])
          obtain ⟨hsome, -⟩ :=
            send_writes_of_fits hserved.regular hserved.wasWritable hfits s.noise
          exact absurd (hnone message rfl) hsome
        · rw [heq]
          exact ⟨[], FrameWriter.writes_nil _, by simp [textsIn, Action.textsTo, hh]⟩
      · simp at hclose
      · cases heq
        cases htaken
        have hfits := hserved.fits message (by simp [Action.textsTo, htext])
        obtain ⟨-, hwrites⟩ :=
          send_writes_of_fits hserved.regular hserved.wasWritable hfits s.noise
        obtain ⟨frame, hwrites⟩ := hwrites result new hsend hserved.isWritable
        exact ⟨_, hwrites, by simp [textsIn, Parcel.message?, Action.textsTo, htext]⟩
    | command c =>
      obtain ⟨rfl, -⟩ | ⟨hclose, -⟩ | ⟨message', result, heq, -⟩ := htaken.session hold hnew
      · refine ⟨[], FrameWriter.writes_nil _, ?_⟩
        cases c with
        | broadcast message =>
          -- No two entries have one handle, so the client gets one copy.
          cases htaken
          obtain ⟨id, hmem⟩ := hserved.registered
          exact flatMap_textsTo (handles_nodup hs.owned) (List.mem_map_of_mem hmem) message
        | sendTo message targets => simp [Action.isRelayed] at ha
        | disconnect id => simp [Action.isPlain] at hplain
      · simp at hclose
      · simp at heq
    | takeCommand => simp [Action.isRelayed] at ha
    | _ => simp [Action.isPlain] at hplain

end Server

end CipherLink
