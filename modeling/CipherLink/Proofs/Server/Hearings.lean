import CipherLink.Proofs.Crossing.Flow
import CipherLink.Proofs.Server.Owing

/-!
# What is heard from a client

The read loop of a client hears the frames that the client has sent one after another,
whatever else happens to the server, until it stops reading.
-/

namespace CipherLink.Server

variable {s s' : Server} {h : Handle} {moves : List Move} {m : Move}

/-- A client sends these messages: their frames are in one chain, and what is there of
their bytes and what arrives along a run is a front of them. -/
structure Sends (s : Server) (h : Handle) (moves : List Move) (messages : List Message) :
    Prop where
  exists_parcels : ∃ session t block limit source arrived bytes parcels last,
    s.sessions[h]? = some session ∧
    session.channel.reader = .ofPeer t block limit .records source ∧
    0 < block ∧ Cipher.blockLength ∣ block ∧ source.Delivers arrived .live ∧
    Arrive h moves bytes ∧ arrived ++ bytes <+: Parcel.wire parcels ∧
    t.PacksAll block limit .records parcels last ∧ parcels.filterMap Parcel.message? = messages

theorem read_connection {session : Session} {message : Message} {delivery : Delivery}
    (hread : session.read.1 = .message message delivery) : delivery.connection = session.id := by
  rw [Session.read] at hread
  split at hread
  · simp at hread
  · split at hread
    · simp at hread
    · simp at hread
    · next outcome reader _ =>
      cases outcome with
      | message message' size =>
        cases hread
        rfl
      | _ => simp at hread

theorem heard?_eq_some {x : Hearing} (hx : s.heard? m = some x) : ∃ session, m = .read x.handle ∧
    s.sessions[x.handle]? = some session ∧ session.read.1 = .message x.message x.delivery := by
  cases m with
  | read h' =>
    obtain ⟨session, hsession, hx⟩ := Option.bind_eq_some_iff.mp hx
    cases hread : session.read.1 with
    | message message delivery =>
      rw [hread, Session.Heard.hearing?, Option.some.injEq] at hx
      subst hx
      exact ⟨session, rfl, hsession, hread⟩
    | nothing | waiting => simp [hread, Session.Heard.hearing?] at hx
  | _ => simp [heard?] at hx

theorem exists_session_of_move {session : Session} (hsession : s.sessions[h]? = some session)
    (hmove : s.move m = some s') :
    ∃ next, s'.sessions[h]? = some next ∧ next.id = session.id := by
  obtain ⟨index, a, next, rest, started, before, after, -, -, hturn⟩ | ⟨added, hgrows⟩ :=
    move_cases hmove
  · exact hturn.kept.exists_id hsession
  · exact hgrows.owned h session hsession

theorem exists_session_of_follow {session : Session} (hsession : s.sessions[h]? = some session)
    (hrun : s.follow moves = some s') :
    ∃ next, s'.sessions[h]? = some next ∧ next.id = session.id := by
  refine follow_keeps (P := fun t => ∃ next, t.sessions[h]? = some next ∧ next.id = session.id)
    ⟨session, hsession, rfl⟩ ?_ hrun
  rintro s s' m - ⟨old, hold, hid⟩ hmove
  obtain ⟨next, hnext, hid'⟩ := exists_session_of_move hold hmove
  exact ⟨next, hnext, hid'.trans hid⟩

theorem connection_of_heard (hrun : s.follow moves = some s') {x : Hearing}
    (hx : x ∈ s.heard moves) :
    ∃ session, s'.sessions[x.handle]? = some session ∧ x.delivery.connection = session.id := by
  induction moves generalizing s with
  | nil => simp [heard] at hx
  | cons m moves ih =>
    obtain ⟨middle, hmove, hrest⟩ := Option.bind_eq_some_iff.mp hrun
    rw [heard, hmove] at hx
    obtain hx | hx := List.mem_append.mp hx
    · obtain ⟨session, -, hsession, hread⟩ := heard?_eq_some (Option.mem_toList.mp hx)
      obtain ⟨last, hlast, hid⟩ := exists_session_of_follow hsession hrun
      exact ⟨last, hlast, (read_connection hread).trans hid.symm⟩
    · exact ih hrest hx

theorem move_reader {old : Session} (hold : s.sessions[h]? = some old)
    (hmove : s.move m = some s') (hread : m ≠ .read h) (hstream : ∀ change, m ≠ .stream h change) :
    ∃ new, s'.sessions[h]? = some new ∧ new.channel.reader = old.channel.reader ∧
      (new.isReading = true → old.isReading = true) := by
  have hset {h' : Handle} (hne : h' ≠ h) (session : Session) :
      (s.sessions.set h' session)[h]? = some old := by
    rw [List.getElem?_set_ne hne, hold]
  cases m with
  | accept id channel =>
    obtain rfl | ⟨-, session, noise, -, rfl⟩ := accept_cases hmove
    · exact ⟨old, hold, rfl, fun hreading => hreading⟩
    · refine ⟨old, ?_, rfl, fun hreading => hreading⟩
      exact getElem?_append_of_some hold _
  | stream h' change =>
    have hne : h' ≠ h := by
      rintro rfl
      exact hstream change rfl
    cases hmove
    refine ⟨old, ?_, rfl, id⟩
    rw [stream]
    split
    · exact hset hne _
    · exact hold
  | read h' =>
    have hne : h' ≠ h := by
      rintro rfl
      exact hread rfl
    cases hmove
    refine ⟨old, ?_, rfl, id⟩
    cases hsession : s.sessions[h']? with
    | none =>
      simp only [Server.read, hsession]
      exact hold
    | some session =>
      obtain ⟨notes, heq⟩ := read_eq hsession
      rw [heq]
      exact hset hne _
  | close h' =>
    cases hmove
    rw [closeSession]
    split
    · next session hsession =>
      by_cases hh : h' = h
      · subst hh
        rw [hold, Option.some.injEq] at hsession
        subst hsession
        exact ⟨old.close, getElem?_set_of_some hold _, rfl,
          by simp [Session.close]⟩
      · exact ⟨old, hset hh _, rfl, id⟩
    · exact ⟨old, hold, rfl, id⟩
  | call c | subscribe change | relay =>
    cases hmove
    exact ⟨old, hold, rfl, id⟩
  | stop =>
    cases hmove
    refine ⟨old, ?_, rfl, id⟩
    rw [beginStop]
    split <;> exact hold
  | task index =>
    obtain ⟨a, next, rest, started, before, after, -, -, hturn⟩ := exists_turn hmove
    obtain ⟨new, hnew, -⟩ := hturn.kept.exists_id hold
    obtain ⟨t, htaken, hsame⟩ := hturn.taken
    have hnew' : t.sessions[h]? = some new := by
      rw [hsame] at hnew
      exact hnew
    refine ⟨new, hnew, ?_⟩
    obtain ⟨rfl, -⟩ | ⟨-, rfl⟩ | ⟨message, result, -, hsend⟩ := htaken.session hold hnew'
    · exact ⟨rfl, id⟩
    · exact ⟨rfl, by simp [Session.close]⟩
    · rw [Session.send] at hsend
      split at hsend
      · obtain ⟨⟨outcome, writer⟩, -, hafter⟩ := Option.map_eq_some_iff.mp hsend
        cases outcome <;> cases hafter <;> exact ⟨rfl, id⟩
      · cases hsend
        exact ⟨rfl, id⟩

theorem read_parcels {session : Session} {t last : Encryptor} {block limit : Nat}
    {source : Source} {arrived bytes : Bytes} {parcels : List Parcel}
    (hreading : session.isReading = true)
    (hreader : session.channel.reader = .ofPeer t block limit .records source) (hpos : 0 < block)
    (hwhole : Cipher.blockLength ∣ block) (hsource : source.Delivers arrived .live)
    (hfront : arrived ++ bytes <+: Parcel.wire parcels)
    (hpacked : t.PacksAll block limit .records parcels last) :
    session.read = (.waiting, session) ∨
    ∃ p others t' source' arrived', parcels = p :: others ∧
      session.read.1 = (match p.message? with
        | some message => .message message ⟨session.id, p.frame.length⟩
        | none => .nothing) ∧
      session.read.2 = session.hearing (.ofPeer t' block limit .records source') p.frame.length ∧
      source'.Delivers arrived' .live ∧ arrived' ++ bytes <+: Parcel.wire others ∧
      t'.PacksAll block limit .records others last := by
  cases hpacked with
  | nil =>
    left
    obtain ⟨rfl, -⟩ : arrived = [] ∧ bytes = [] := by simpa [Parcel.wire] using hfront
    refine Session.read_waiting ?_
    rw [hreader]
    exact FrameReader.readNext_silent rfl hpos hsource
  | @cons _ t' _ p others head tail =>
    rw [Parcel.wire, List.flatMap_cons] at hfront
    by_cases hshort : arrived.length < p.frame.length
    · left
      refine Session.read_waiting ?_
      rw [hreader]
      refine FrameReader.readNext_parcel_waits head hwhole ?_ hshort hsource
      exact List.prefix_of_prefix_length_le ((List.prefix_append _ _).trans hfront)
        (List.prefix_append _ _) (Nat.le_of_lt hshort)
    · right
      obtain ⟨more, rfl⟩ : p.frame <+: arrived :=
        List.prefix_of_prefix_length_le (List.prefix_append _ _)
          ((List.prefix_append _ _).trans hfront) (Nat.le_of_not_lt hshort)
      rw [List.append_assoc, List.prefix_append_right_inj] at hfront
      obtain ⟨source', hsource', hnext⟩ :=
        FrameReader.readNext_parcel head Codec.records_inverts hwhole hsource
      rw [← hreader] at hnext
      refine ⟨p, others, t', source', more, rfl, ?_, ?_, hsource', hfront, tail⟩
      all_goals
        obtain ⟨order, frame⟩ := p
        cases order
      · exact congrArg Prod.fst (Session.read_message hreading hnext)
      · exact congrArg Prod.fst (Session.read_empty hreading hnext)
      · exact congrArg Prod.snd (Session.read_message hreading hnext)
      · exact congrArg Prod.snd (Session.read_empty hreading hnext)

theorem heard_prefix {session : Session} {block limit : Nat} {bytes : Bytes}
    {parcels : List Parcel} {last : Encryptor} (hpos : 0 < block)
    (hwhole : Cipher.blockLength ∣ block) (hsession : s.sessions[h]? = some session)
    (hreads : session.isReading = true → ∃ t source arrived,
      session.channel.reader = .ofPeer t block limit .records source ∧
      source.Delivers arrived .live ∧ arrived ++ bytes <+: Parcel.wire parcels ∧
      t.PacksAll block limit .records parcels last)
    (harrive : Arrive h moves bytes) (hrun : s.follow moves = some s') :
    ((s.heard moves).filter fun x => x.handle == h).map Hearing.message <+:
      parcels.filterMap Parcel.message? := by
  -- `parcels` are the frames that were not heard yet, `bytes` what is still to arrive.
  induction harrive generalizing s session parcels with
  | nil => exact List.nil_prefix
  | @more bytes moves rest _ ih =>
    obtain ⟨next, hmove, hrest⟩ := Option.bind_eq_some_iff.mp hrun
    rw [heard, hmove]
    change ((next.heard moves).filter _).map Hearing.message <+: _
    cases hmove
    rw [stream, hsession] at hrest ⊢
    refine ih (getElem?_set_of_some hsession _) ?_ hrest
    intro hreading
    obtain ⟨t, source, arrived, hreader, hsource, hfront, hpacked⟩ := hreads hreading
    refine ⟨t, source.arrive bytes, arrived ++ bytes, ?_, hsource.arrive bytes, ?_, hpacked⟩
    · simp only [hreader]
      rfl
    · rwa [List.append_assoc]
  | @other m moves bytes hm _ ih =>
    obtain ⟨next, hmove, hrest⟩ := Option.bind_eq_some_iff.mp hrun
    rw [heard, hmove, List.filter_append, List.map_append]
    by_cases hread : m = .read h
    · subst hread
      cases hmove
      obtain ⟨notes, heq⟩ := read_eq hsession
      have hlt := (List.getElem?_eq_some_iff.mp hsession).1
      have hnext : (s.read h).2.sessions[h]? = some session.read.2 := by
        rw [heq]
        exact List.getElem?_set_self hlt
      have hwaits (hread : session.read = (.waiting, session)) :
          ((s.heard? (.read h)).toList.filter fun x => x.handle == h) = [] := by
        simp [heard?, hsession, hread, Session.Heard.hearing?]
      by_cases hreading : session.isReading = true
      · obtain ⟨t, source, arrived, hreader, hsource, hfront, hpacked⟩ := hreads hreading
        obtain hread | ⟨p, others, t', source', arrived', rfl, hhears, hthen, hsource', hfront',
          hpacked'⟩ := read_parcels hreading hreader hpos hwhole hsource hfront hpacked
        · rw [hwaits hread]
          rw [hread] at hnext
          exact ih hnext hreads hrest
        · have hreads' : session.read.2.isReading = true → ∃ t source arrived,
              session.read.2.channel.reader = .ofPeer t block limit .records source ∧
              source.Delivers arrived .live ∧ arrived ++ bytes <+: Parcel.wire others ∧
              t.PacksAll block limit .records others last := by
            intro _
            rw [hthen]
            exact ⟨t', source', arrived', rfl, hsource', hfront', hpacked'⟩
          have hrest' := ih hnext hreads' hrest
          rw [List.filterMap_cons, heard?, hsession, Option.bind_some, hhears]
          cases p.message? with
          | none => exact hrest'
          | some message =>
            simp only [Session.Heard.hearing?, Option.toList_some, List.filter_cons,
              beq_self_eq_true, if_true, List.filter_nil, List.map_cons, List.map_nil,
              List.singleton_append]
            exact (List.prefix_cons_inj message).mpr hrest'
      · have hread : session.read = (.waiting, session) := by
          simp only [Session.read, hreading, Bool.not_false, if_true]
        rw [hwaits hread]
        rw [hread] at hnext
        exact ih hnext hreads hrest
    · have hquiet : (s.heard? m).toList.filter (fun x => x.handle == h) = [] := by
        rw [List.filter_eq_nil_iff]
        intro x hx
        obtain ⟨session', rfl, -⟩ := heard?_eq_some (Option.mem_toList.mp hx)
        intro hhandle
        rw [beq_iff_eq] at hhandle
        exact hread (by rw [hhandle])
      rw [hquiet]
      obtain ⟨new, hnew, hreader, hreading⟩ := move_reader hsession hmove hread hm
      refine ih hnew ?_ hrest
      intro hnow
      rw [hreader]
      exact hreads (hreading hnow)

end CipherLink.Server
