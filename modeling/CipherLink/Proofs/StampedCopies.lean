import CipherLink.Proofs.Relays

/-!
# Copies and the limit of frames

The copy of a text names the connection that the text came from, so it is longer than a
text that names nobody. Such a text may be within the limit of frames while its copy is
not. Then the copy is refused for every client, whereas all other copies are within the
limit that their texts have kept.
-/

namespace CipherLink

theorem ClientId.size_octets (id : ClientId) : (Cbor.Value.octets id.toBytes).size = 17 := by
  rw [Cbor.Value.size, toBytes, Bytes.length_ofNat]
  rfl

theorem Message.length_stamped (message : Message) (id : ClientId) :
    (Recorded.encode (message.stamped id)).length =
      (Recorded.encode message).length + if message.clientId = none then 16 else 0 := by
  obtain ⟨key, old, payload⟩ := message
  rw [Recorded.length_encode, Recorded.length_encode]
  simp only [Recorded.encodedSize, Recorded.schema, Recorded.values, stamped, Cbor.Schema.size,
    List.zip_cons_cons, List.zip_nil_right, List.foldr_cons, List.foldr_nil, ClientId.size_octets]
  cases old with
  | none =>
    have habsent : Cbor.Value.absent.size = 1 := rfl
    rw [if_pos rfl, habsent]
    omega
  | some old =>
    rw [if_neg (Option.some_ne_none old), ClientId.size_octets]
    rfl

def Message.outgrows (message : Message) (limit : Nat) : Bool :=
  message.clientId.isNone &&
    decide (min limit Frame.greatestLength < (Recorded.encode message).length + 16)

theorem Message.outgrows_iff {message : Message} {limit : Nat}
    (hfits : (Recorded.encode message).length ≤ min limit Frame.greatestLength) (id : ClientId) :
    message.outgrows limit = true ↔
      min limit Frame.greatestLength < (Recorded.encode (message.stamped id)).length := by
  rw [outgrows, Bool.and_eq_true, Option.isNone_iff_eq_none, decide_eq_true_iff, length_stamped]
  by_cases hnone : message.clientId = none
  · simp [hnone]
  · simpa [hnone] using hfits

namespace FrameWriter

variable {w : FrameWriter} {message : Message}

theorem fits_iff : w.Fits message ↔
    (Recorded.encode message).length ≤ min w.limit Frame.greatestLength :=
  Nat.le_min.symm

theorem write_of_large (hw : w.Regular) (hopen : w.isOpen = true)
    (hlarge : min w.limit Frame.greatestLength < (Recorded.encode message).length)
    (hword : (Recorded.encode message).length < UInt32.size) (noise : Noise) :
    ∃ bound, w.write message noise =
      some (.error (.frameTooLarge (Recorded.encode message).length bound), w) := by
  have hsize : w.codec.size message = .ok (Recorded.encode message).length := by
    rw [hw.codec, Codec.records_size, Recorded.length_encode]
  have hpayload : w.codec.encode message = .ok (Recorded.encode message) := by
    rw [hw.codec, Codec.records_encode]
  by_cases hlimit : w.limit < (Recorded.encode message).length
  · exact ⟨w.limit, by simp only [write, hsize, hlimit, if_true]⟩
  · obtain ⟨total, htotal⟩ := exists_paddedLength hword hw.positive hw.bounded
    have hgreatest : Frame.greatestLength < (Recorded.encode message).length := by omega
    exact ⟨Frame.greatestLength, by
      simp [write, hsize, hlimit, htotal, hpayload, send, hopen, hgreatest]⟩

theorem write_of_fits (hw : w.Regular) (hopen : w.isOpen = true) (hfits : w.Fits message)
    (noise : Noise) : ∃ result next, w.write message noise = some (result, next) ∧
      ∀ length bound, result ≠ .error (.frameTooLarge length bound) := by
  obtain ⟨frame, encryptor, hpack⟩ := exists_pack hw hopen hfits noise
  have hperform := (w.comes_pack (.message message) noise).2
  rw [hpack, Option.map_some, conclude] at hperform
  obtain hdeliver | ⟨part, fault, -, hdeliver⟩ := w.deliver_cases frame encryptor
  · rw [hdeliver] at hperform
    exact ⟨_, _, hperform, by simp⟩
  · rw [hdeliver] at hperform
    exact ⟨_, _, hperform, by simp⟩

end FrameWriter

namespace Session

variable {message : Message}

theorem send_of_large (s : Session) (hwritable : s.isWritable = true)
    (hregular : s.channel.writer.Regular)
    (hlarge : min s.channel.writer.limit Frame.greatestLength < (Recorded.encode message).length)
    (hword : (Recorded.encode message).length < UInt32.size) (noise : Noise) :
    ∃ bound, s.send message noise =
      some (.error (.frame (.frameTooLarge (Recorded.encode message).length bound)), s) := by
  obtain ⟨hconnected, hopen⟩ := Server.writable_iff.mp hwritable
  obtain ⟨bound, hwrite⟩ := FrameWriter.write_of_large hregular hopen hlarge hword noise
  exact ⟨bound, by rw [send, if_pos hconnected, hwrite, Option.map_some, afterWrite]⟩

theorem send_of_fits (s : Session) (hwritable : s.isWritable = true)
    (hregular : s.channel.writer.Regular) (hfits : s.channel.writer.Fits message) (noise : Noise) :
    ∃ result next, s.send message noise = some (result, next) ∧
      ∀ length bound, result ≠ .error (.frame (.frameTooLarge length bound)) := by
  obtain ⟨hconnected, hopen⟩ := Server.writable_iff.mp hwritable
  obtain ⟨result, writer, hwrite, hresult⟩ :=
    FrameWriter.write_of_fits hregular hopen hfits noise
  rw [send, if_pos hconnected, hwrite, Option.map_some]
  cases result with
  | ok size => exact ⟨_, _, rfl, by simp⟩
  | error cause =>
    refine ⟨_, _, rfl, ?_⟩
    intro length bound heq
    cases heq
    exact hresult length bound rfl

end Session

namespace Server

variable {s t : Server} {h : Handle} {session : Session} {message : Message}

theorem broadcast_mem_of_read (hrelays : s.subscriptions.Relays)
    (hsession : s.sessions[h]? = some session) (htext : message.isText = true) {delivery : Delivery}
    (hread : session.read.1 = .message message delivery) :
    .broadcast (message.stamped delivery.connection) ∈ (s.read h).2.queue := by
  obtain ⟨notes, heq⟩ := read_eq hsession
  have hkey : message.key = MessageKey.text := by simpa [Message.isText] using htext
  have hhandler : .relayText ∈ s.subscriptions.snapshot message.key := by
    rw [hkey, ← List.count_pos_iff, hrelays.1]
    exact Nat.one_pos
  rw [heq, hread, reactions]
  refine List.mem_append_right _ (List.mem_flatMap.mpr ⟨.relayText, hhandler, ?_⟩)
  exact List.mem_singleton_self _

theorem sendOne_of_refused {cause : SessionError}
    (hsession : s.sessions[h]? = some session)
    (hsend : session.send message s.noise = some (.error cause, session)) :
    s.sendOne message h = s := by
  obtain ⟨hlt, rfl⟩ := List.getElem?_eq_some_iff.mp hsession
  simp only [sendOne, hsession, hsend, setSession, List.set_getElem_self]

/-- A text that a client's writer has accepted is heard by the relay. Its copy is refused
for its size by every client with the same limit if it has outgrown this limit, and passed
over; otherwise it is refused by none. -/
theorem copy_refused_iff_outgrown {w w' : FrameWriter} {noise : Noise} {size : Nat}
    {frame rest : Bytes} {source : Source} (hregular : w.Regular)
    (hwrite : w.write message noise = some (.ok size, w'))
    (hframe : w'.sink.taken = w.sink.taken ++ frame) (htext : message.isText = true)
    (hrelays : s.subscriptions.Relays) (hsession : s.sessions[h]? = some session)
    (hreading : session.isReading = true)
    (hreader : session.channel.reader =
      .ofPeer w.encryptor w.block w.limit .records source)
    (hsource : source.Delivers (frame ++ rest) .live) :
    .broadcast (message.stamped session.id) ∈ (s.read h).2.queue ∧
    ∀ (t : Server) (h' : Handle) (other : Session), t.sessions[h']? = some other →
      other.isWritable = true → other.channel.writer.Regular →
      other.channel.writer.limit = w.limit →
      if message.outgrows w.limit then
        (∃ bound, other.send (message.stamped session.id) t.noise = some
          (.error (.frame (.frameTooLarge ((Recorded.encode message).length + 16) bound)), other)) ∧
        t.sendOne (message.stamped session.id) h' = t
      else ∃ result next, other.send (message.stamped session.id) t.noise = some (result, next) ∧
        ∀ length bound, result ≠ .error (.frame (.frameTooLarge length bound)) := by
  have hperform : w.perform (.message message) noise = some (.ok size, w') := hwrite
  obtain ⟨frame', -, -, hpacks, hnext⟩ := FrameWriter.perform_eq_ok hperform
  have hsame : frame' = frame := by
    rw [hnext] at hframe
    exact List.append_cancel_left hframe
  subst hsame
  rw [hregular.codec] at hpacks
  obtain ⟨payload, hpayload, hlimit, hencloses⟩ := hpacks.payload
  obtain rfl := Codec.eq_of_records_encode hpayload
  have hfits := Nat.le_min.mpr ⟨hlimit, hencloses.greatest⟩
  refine ⟨?_, ?_⟩
  · obtain ⟨others, -, hreads⟩ := FrameReader.readNext_parcel hpacks Codec.records_inverts
      hregular.whole hsource
    rw [← hreader] at hreads
    have hread := Session.read_message hreading hreads
    exact broadcast_mem_of_read hrelays hsession htext (congrArg Prod.fst hread)
  · intro t h' other hother hwritable hregular' hlimit'
    split
    · next hlarge =>
      have hnone : message.clientId = none := by
        rw [Message.outgrows, Bool.and_eq_true, Option.isNone_iff_eq_none] at hlarge
        exact hlarge.1
      have hlength := message.length_stamped session.id
      rw [if_pos hnone] at hlength
      rw [Message.outgrows_iff hfits session.id, ← hlimit'] at hlarge
      have hword : (Recorded.encode (message.stamped session.id)).length < UInt32.size := by
        have hgreatest := hencloses.greatest
        rw [hlength]
        simp only [Frame.greatestLength, UInt32.size] at hgreatest ⊢
        omega
      obtain ⟨bound, hsend⟩ := other.send_of_large hwritable hregular' hlarge hword t.noise
      rw [← hlength]
      exact ⟨⟨bound, hsend⟩, sendOne_of_refused hother hsend⟩
    · next hsmall =>
      rw [Message.outgrows_iff hfits session.id, Nat.not_lt, ← hlimit'] at hsmall
      exact other.send_of_fits hwritable hregular' (FrameWriter.fits_iff.mpr hsmall) t.noise

def chatting (limit : Nat) (message : Message) : Server :=
  let frame := ((plainChannel limit).writer.frame? (.message message) fun _ => 7).getD []
  { (Relay.install (new ⟨"", .unencrypted, .standard, 16⟩ .empty fun _ => 0)).2 with
    isRunning := true
    sessions := [.start (.ofNat 1) ((plainChannel limit).arrive frame),
      .start (.ofNat 2) (plainChannel limit)]
    registry := ⟨[(.ofNat 1, 0), (.ofNat 2, 1)], by decide⟩ }

/-- With room for it the copy of a short text is sent. -/
theorem copy_refused_iff_outgrown_small :
    let message : Message := ⟨MessageKey.text, none, [121]⟩
    let copy := message.stamped (.ofNat 1)
    let next := ((chatting 128 message).read 0).2
    .broadcast copy ∈ next.queue ∧ ∃ other, next.sessions[1]? = some other ∧
      ∃ result after, other.send copy next.noise = some (result, after) ∧
        ∀ length bound, result ≠ .error (.frame (.frameTooLarge length bound)) := by
  intro message copy next
  have hregular : (plainChannel 128).writer.Regular := ⟨rfl, by decide, by decide, by decide⟩
  have hsent : ((plainChannel 128).writer.write message fun _ => 7).bind (fun out =>
      out.1.toOption.map fun size => (size, out.2.sink.taken)) =
      some (32, ((plainChannel 128).writer.frame? (.message message) fun _ => 7).getD []) := by
    decide +kernel
  obtain ⟨⟨result, w'⟩, hwrite, hresult⟩ := Option.bind_eq_some_iff.mp hsent
  obtain ⟨size, hsize, hpair⟩ := Option.map_eq_some_iff.mp hresult
  obtain ⟨-, htaken⟩ := Prod.mk.inj hpair
  obtain rfl := eq_ok_of_toOption hsize
  have hsource (frame : Bytes) : (Source.live.arrive frame).Delivers (frame ++ []) .live := by
    rw [List.append_nil]
    exact Source.delivers_live.arrive _
  obtain ⟨hqueue, hothers⟩ := copy_refused_iff_outgrown (s := chatting 128 message) (h := 0)
    hregular hwrite htaken rfl (relays_install _ rfl) rfl rfl rfl (hsource _)
  have hother : next.sessions[1]? = some (.start (.ofNat 2) (plainChannel 128)) := by
    obtain ⟨notes, hread⟩ := read_eq (s := chatting 128 message) (h := 0) rfl
    simp only [next]
    rw [hread]
    rfl
  refine ⟨hqueue, _, hother, ?_⟩
  have hsends := hothers next 1 _ hother rfl hregular rfl
  rwa [if_neg (by decide +kernel)] at hsends

/-- A text that just keeps the limit is accepted and heard, and its copy is refused for
every client. -/
theorem copy_outgrows_limit :
    let message : Message := ⟨MessageKey.text, none, [121]⟩
    let copy := message.stamped (.ofNat 1)
    let next := ((chatting 27 message).read 0).2
    ((plainChannel 27).writer.write message fun _ => 7).any (fun out => out.1.isOk) = true ∧
      next.queue = [.broadcast copy] ∧ next.registry.handles = [0, 1] ∧
      next.sessions.all Session.isWritable = true ∧
      next.sessions.map (fun other => (other.send copy next.noise).map Prod.fst) =
        [some (.error (.frame (.frameTooLarge 43 27))),
          some (.error (.frame (.frameTooLarge 43 27)))] := by
  decide +kernel

end Server

end CipherLink
