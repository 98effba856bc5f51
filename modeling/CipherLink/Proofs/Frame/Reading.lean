import CipherLink.Proofs.Frame.Writing
import CipherLink.Proofs.WireRecords

/-!
# Frames read

A writer encrypts a frame as a whole, a reader decrypts the first block of it on
its own. Between two frames the decryptor of the reader is the peer of the
writer's encryptor; a frame that is read keeps it so, and a run of frames follows
by induction on the frames. Of a frame that is cut off the reader makes nothing.
-/

namespace CipherLink

/-- Whether a codec reads every payload back that fits a frame, and writes none that
is empty. -/
def Codec.Inverts (codec : Codec) : Prop :=
  ∀ message payload, codec.encode message = .ok payload →
    payload.length ≤ Frame.greatestLength → payload ≠ [] ∧ codec.decode payload = .ok message

theorem Message.length_payload_le (message : Message) :
    message.payload.length ≤ (Recorded.encode message).length := by
  rw [Recorded.encode, Cbor.Schema.write_eq, List.length_append, Cbor.Schema.length_entries]
  simp [Recorded.values, Recorded.schema, Cbor.Value.size]
  omega

theorem Codec.records_inverts : Codec.records.Inverts := by
  intro message payload hpayload h
  obtain rfl := Codec.eq_of_records_encode hpayload
  have hfits : message.payload.length < UInt64.size :=
    Nat.lt_of_le_of_lt (Nat.le_trans message.length_payload_le h) (by decide)
  have hdecode := Codec.records_decode_encode (Message.writable hfits) []
  rw [List.append_nil] at hdecode
  exact ⟨Recorded.encode_ne_nil message, hdecode⟩

theorem FrameReader.decodePayload_payloadIn {codec : Codec} (hcodec : codec.Inverts)
    {order : FrameOrder} {payload : Bytes} (size : Nat) (h : order.payloadIn codec = .ok payload)
    (hgreatest : payload.length ≤ Frame.greatestLength) :
    decodePayload codec payload size = order.outcome size := by
  cases order with
  | empty =>
    obtain rfl := Except.ok.inj h
    rfl
  | message m =>
    obtain ⟨hnil, hdecode⟩ := hcodec m payload h hgreatest
    simp only [FrameOrder.outcome, decodePayload, List.isEmpty_iff, hnil, if_false, hdecode]

theorem Encryptor.Encloses.opens {t t' : Encryptor} {block : Nat} {payload frame : Bytes}
    (h : t.Encloses block payload frame t') (hblock : Cipher.blockLength ∣ block) :
    ∃ noise d, Frame.prefixLength ≤ block ∧ block ≤ frame.length ∧
      t.peer.apply (frame.take block) =
        .ok ((FrameWriter.plainFrame payload frame.length noise).take block, d) ∧
      d.apply (frame.drop block) =
        .ok ((FrameWriter.plainFrame payload frame.length noise).drop block, t'.peer) := by
  obtain ⟨hused, hbound, hmultiple⟩ := Frame.paddedLength?_eq_some h.padded
  obtain ⟨noise, hencrypted⟩ := h.encrypted
  have hpos : 0 < block := by omega
  have hprefix : Frame.prefixLength ≤ block :=
    Nat.le_trans (by decide) (Nat.le_of_dvd hpos hblock)
  have hwhole : block ≤ frame.length := Nat.le_of_dvd (by omega) hmultiple
  have hfirst : (frame.take block).length = block := by
    rw [List.length_take, Nat.min_eq_left hwhole]
  -- The frame is decrypted at once on paper and in two pieces by the reader.
  have hdecrypted := Encryptor.peer_apply hencrypted
  rw [← List.take_append_drop block frame] at hdecrypted
  obtain ⟨d, hfront, hrest⟩ := Decryptor.apply_pieces (by rwa [hfirst])
    (by rw [List.length_drop]; exact Nat.dvd_sub (Nat.dvd_trans hblock hmultiple) hblock) hdecrypted
  rw [hfirst, List.take_append_drop] at hfront hrest
  exact ⟨noise, d, hprefix, hwhole, hfront, hrest⟩

namespace FrameReader

theorem plainFrame_eq (payload : Bytes) (total : Nat) (noise : Noise) :
    ∃ front rest : Bytes, FrameWriter.plainFrame payload total noise = front ++ rest ∧
      front.length = Frame.prefixLength ∧ front = Bytes.ofNat Frame.prefixLength payload.length ∧
      rest.take payload.length = payload :=
  ⟨_, _, List.append_assoc _ _ _, Bytes.length_ofNat _ _, rfl, List.take_left⟩

theorem conclude_plainFrame (r : FrameReader) (payload : Bytes) (total : Nat) (noise : Noise) :
    r.conclude (FrameWriter.plainFrame payload total noise) payload.length total =
      .outcome (decodePayload r.codec payload total) r := by
  obtain ⟨front, rest, hframe, hlength, -, hpayload⟩ := plainFrame_eq payload total noise
  have hfront := Bytes.split?_append front rest
  rw [hlength] at hfront
  have hsplit : Bytes.split? payload.length rest = some (payload, rest.drop payload.length) := by
    rw [Bytes.split?, hpayload, if_pos rfl]
  simp only [conclude, payload?, hframe, hfront, hsplit, Option.bind_eq_bind, Option.bind_some]
  rfl

theorem split?_plainFrame (payload : Bytes) (total : Nat) (noise : Noise) {n : Nat}
    (hn : Frame.prefixLength ≤ n) :
    ∃ rest, Bytes.split? Frame.prefixLength
      ((FrameWriter.plainFrame payload total noise).take n) =
        some (Bytes.ofNat Frame.prefixLength payload.length, rest) := by
  obtain ⟨front, rest, hframe, hlength, hfront, -⟩ := plainFrame_eq payload total noise
  have hsplit := Bytes.split?_append front (rest.take (n - front.length))
  rw [hlength] at hsplit
  rw [hframe, List.take_append, List.take_of_length_le (by omega), hlength, ← hfront]
  exact ⟨_, hsplit⟩

theorem readAnnounced_plainFrame (r : FrameReader) {payload : Bytes} (total : Nat) (noise : Noise)
    (hblock : Frame.prefixLength ≤ r.block) (hlimit : payload.length ≤ r.limit)
    (hgreatest : payload.length ≤ Frame.greatestLength) :
    r.readAnnounced ((FrameWriter.plainFrame payload total noise).take r.block) =
      r.readRest ((FrameWriter.plainFrame payload total noise).take r.block) payload.length := by
  obtain ⟨rest, hsplit⟩ := split?_plainFrame payload total noise hblock
  have hlength : Bytes.toInt (Bytes.ofNat Frame.prefixLength payload.length) = payload.length := by
    apply Bytes.toInt_ofNat
    simp only [Frame.greatestLength, Frame.prefixLength] at hgreatest ⊢
    omega
  rw [readAnnounced, hsplit]
  simp only [hlength]
  rw [if_neg (by omega), Int.toNat_natCast, if_neg (by omega)]

theorem readRest_plainFrame (r : FrameReader) {payload second rest : Bytes} {total : Nat}
    {noise : Noise} {t : Decryptor} {tail : Source}
    (hpadded : Frame.paddedLength? payload.length r.block = some total)
    (hsecond : r.decryptor.apply second =
      .ok ((FrameWriter.plainFrame payload total noise).drop r.block, t))
    (hlength : second.length = total - r.block)
    (hsource : r.source.Delivers (second ++ rest) tail) :
    ∃ source : Source, source.Delivers rest tail ∧
      r.readRest ((FrameWriter.plainFrame payload total noise).take r.block) payload.length =
        .outcome (decodePayload r.codec payload total) { r with source, decryptor := t } := by
  have hframe : (FrameWriter.plainFrame payload total noise).length = total :=
    FrameWriter.length_plainFrame (Frame.paddedLength?_eq_some hpadded).1
  by_cases hle : total ≤ r.block
  · obtain rfl : second = [] := List.eq_nil_of_length_eq_zero (by omega)
    rw [Decryptor.apply_nil, Except.ok.injEq, Prod.mk.injEq] at hsecond
    have hfirst : (FrameWriter.plainFrame payload total noise).take r.block =
        FrameWriter.plainFrame payload total noise := List.take_of_length_le (by omega)
    refine ⟨r.source, hsource, ?_⟩
    simp only [readRest, hpadded, hle, if_true, hfirst, conclude_plainFrame, ← hsecond.2]
  · obtain ⟨others, hothers, hfill⟩ := hsource.fill hlength
    refine ⟨others, hothers, ?_⟩
    simp only [readRest, hpadded, hle, if_false, hfill, hsecond, List.take_append_drop,
      conclude_plainFrame]

section

variable {r : FrameReader} {t t' : Encryptor} {payload frame front rest : Bytes} {tail : Source}

theorem readFrame_opened (h : t.Encloses r.block payload frame t') (hpeer : r.decryptor = t.peer)
    (hblock : Cipher.blockLength ∣ r.block) (hlimit : payload.length ≤ r.limit)
    (hsource : r.source.Delivers (frame.take r.block ++ rest) tail) :
    ∃ noise d source, source.Delivers rest tail ∧
      d.apply (frame.drop r.block) =
        .ok ((FrameWriter.plainFrame payload frame.length noise).drop r.block, t'.peer) ∧
      r.readFrame = readRest { r with source, decryptor := d }
        ((FrameWriter.plainFrame payload frame.length noise).take r.block) payload.length := by
  obtain ⟨noise, d, hprefix, hwhole, hfront, hrest⟩ := h.opens hblock
  have hpos : r.block ≠ 0 := by
    simp only [Frame.prefixLength] at hprefix
    omega
  obtain ⟨source, hdelivers, hfill⟩ := hsource.fill (n := r.block)
    (by rw [List.length_take, Nat.min_eq_left hwhole])
  refine ⟨noise, d, source, hdelivers, hrest, ?_⟩
  simp only [readFrame, hfill, hpos, if_false, hpeer, hfront]
  exact readAnnounced_plainFrame { r with source, decryptor := d } frame.length noise hprefix
    hlimit h.greatest

/-- A reader reads the frame of its peer, wherever the bytes are cut, and stays a
peer. -/
theorem readNext_enclosed (h : t.Encloses r.block payload frame t') (hpeer : r.decryptor = t.peer)
    (hopen : r.isOpen = true) (hblock : Cipher.blockLength ∣ r.block)
    (hlimit : payload.length ≤ r.limit) (hsource : r.source.Delivers (frame ++ rest) tail) :
    ∃ source : Source, source.Delivers rest tail ∧
      r.readNext = .outcome (decodePayload r.codec payload frame.length)
        { r with
          decryptor := t'.peer
          source
          isOpen := (decodePayload r.codec payload frame.length).keepsOpen } := by
  rw [← List.take_append_drop r.block frame, List.append_assoc] at hsource
  obtain ⟨noise, d, middle, hmiddle, hrest, hread⟩ :=
    readFrame_opened h hpeer hblock hlimit hsource
  obtain ⟨source, hdelivers, hwhole⟩ :=
    readRest_plainFrame { r with source := middle, decryptor := d } h.padded hrest
      (List.length_drop ..) hmiddle
  refine ⟨source, hdelivers, ?_⟩
  rw [hwhole] at hread
  simp only [readNext, hopen, Bool.not_true, Bool.false_eq_true, if_false, hread]

theorem readFrame_short (h : t.Encloses r.block payload frame t') (hpeer : r.decryptor = t.peer)
    (hblock : Cipher.blockLength ∣ r.block) (hlimit : payload.length ≤ r.limit)
    (hfront : front <+: frame) (hlength : front.length < frame.length)
    (hlong : r.block ≤ front.length) (hsource : r.source.Delivers front tail) :
    ∃ first r', r'.block = r.block ∧ r'.source.Delivers (front.drop r.block) tail ∧
      (front.drop r.block).length < frame.length - r.block ∧
      r.readFrame = readRest r' first payload.length := by
  obtain ⟨lost, rfl⟩ := hfront
  have hsplit : front = (front ++ lost).take r.block ++ front.drop r.block := by
    rw [List.take_append_of_le_length hlong, List.take_append_drop]
  rw [hsplit] at hsource
  obtain ⟨noise, d, source, hdelivers, -, hread⟩ :=
    readFrame_opened h hpeer hblock hlimit hsource
  refine ⟨_, { r with source, decryptor := d }, rfl, hdelivers, ?_, hread⟩
  rw [List.length_drop]
  omega

theorem readNext_waits (h : t.Encloses r.block payload frame t') (hpeer : r.decryptor = t.peer)
    (hopen : r.isOpen = true) (hblock : Cipher.blockLength ∣ r.block)
    (hlimit : payload.length ≤ r.limit) (hfront : front <+: frame)
    (hlength : front.length < frame.length) (hsource : r.source.Delivers front .live) :
    r.readNext = .waiting := by
  have hstep : r.readFrame = .waiting := by
    by_cases hshort : front.length < r.block
    · simp only [readFrame, hsource.fill_silent hshort]
    · obtain ⟨first, r', hsame, hdelivers, hlt, hread⟩ :=
        readFrame_short h hpeer hblock hlimit hfront hlength (by omega) hsource
      have hmore : ¬frame.length ≤ r.block := by omega
      simp only [hread, readRest, hsame, h.padded, hmore, if_false, hdelivers.fill_silent hlt]
  simp only [readNext, hopen, Bool.not_true, Bool.false_eq_true, if_false, hstep]

/-- What a reader makes of `got` bytes of a frame of `total` bytes. -/
def cutOutcome (block total got : Nat) : ReadOutcome :=
  if got = 0 then .closed
  else if got < block then .error (.truncated block got)
  else .error (.truncated total got)

theorem cutOutcome_cases (block total got : Nat) :
    cutOutcome block total got = .closed ∨
      ∃ expected got', cutOutcome block total got = .error (.truncated expected got') := by
  rw [cutOutcome]
  split_ifs
  · exact .inl rfl
  · exact .inr ⟨_, _, rfl⟩
  · exact .inr ⟨_, _, rfl⟩

theorem readNext_cut (h : t.Encloses r.block payload frame t') (hpeer : r.decryptor = t.peer)
    (hopen : r.isOpen = true) (hblock : Cipher.blockLength ∣ r.block)
    (hlimit : payload.length ≤ r.limit) (hfront : front <+: frame)
    (hlength : front.length < frame.length) (hsource : r.source.Delivers front []) :
    ∃ next : FrameReader, next.isOpen = false ∧
      r.readNext = .outcome (cutOutcome r.block frame.length front.length) next := by
  obtain ⟨next, hstep⟩ : ∃ next,
      r.readFrame = .outcome (cutOutcome r.block frame.length front.length) next := by
    by_cases hshort : front.length < r.block
    · cases front with
      | nil => exact ⟨_, by simp only [readFrame, hsource.fill_ended hshort, cutOutcome]; rfl⟩
      | cons b front =>
        refine ⟨{ r with source := [] }, ?_⟩
        rw [List.length_cons] at hshort
        simp only [readFrame, hsource.fill_ended hshort, cutOutcome, hshort, List.length_cons,
          Nat.add_one_ne_zero, if_false, if_true]
    · obtain ⟨first, r', hsame, hdelivers, hlt, hread⟩ :=
        readFrame_short h hpeer hblock hlimit hfront hlength (by omega) hsource
      have hmore : ¬frame.length ≤ r.block := by omega
      have hpos : front.length ≠ 0 := by
        obtain ⟨-, -, hprefix, -⟩ := h.opens hblock
        simp only [Frame.prefixLength] at hprefix
        omega
      have hgot : r.block + (front.drop r.block).length = front.length := by
        rw [List.length_drop]
        omega
      refine ⟨{ r' with source := [] }, ?_⟩
      simp only [hread, readRest, hsame, h.padded, hmore, if_false, hdelivers.fill_ended hlt, hgot,
        cutOutcome, hpos, hshort]
  refine ⟨{ next with isOpen := (cutOutcome r.block frame.length front.length).keepsOpen }, ?_, ?_⟩
  · simp only [cutOutcome]
    split_ifs <;> rfl
  · simp only [readNext, hopen, Bool.not_true, Bool.false_eq_true, if_false, hstep]

end

theorem readMany_closed {r : FrameReader} (h : r.isOpen = false) (n : Nat) :
    r.readMany n = some (List.replicate n .closed) := by
  induction n with
  | zero => rfl
  | succ n ih =>
    have hnext : r.readNext = .outcome .closed r := by
      simp only [readNext, h, Bool.not_false, if_true]
    rw [readMany, hnext]
    simp only [ih, Option.map_some, List.replicate_succ]

theorem readMany_stopped {r next : FrameReader} {outcome : ReadOutcome}
    (h : r.readNext = .outcome outcome next) (hclosed : next.isOpen = false) (n : Nat) :
    r.readMany (n + 1) = some (outcome :: List.replicate n .closed) := by
  rw [readMany, h]
  simp only [readMany_closed hclosed, Option.map_some]

theorem readNext_ended {r : FrameReader} (hopen : r.isOpen = true) (hpos : 0 < r.block)
    (hsource : r.source.Delivers [] []) :
    r.readNext = .outcome .closed { r with source := [], isOpen := false } := by
  simp only [readNext, hopen, Bool.not_true, Bool.false_eq_true, if_false, readFrame,
    hsource.fill_ended hpos, ReadOutcome.keepsOpen]

theorem readNext_silent {r : FrameReader} (hopen : r.isOpen = true) (hpos : 0 < r.block)
    (hsource : r.source.Delivers [] .live) : r.readNext = .waiting := by
  simp only [readNext, hopen, Bool.not_true, Bool.false_eq_true, if_false, readFrame,
    hsource.fill_silent hpos]

theorem readMany_ended {r : FrameReader} {pieces : List Bytes}
    (hsource : r.source = Source.ofPieces pieces) (hpieces : pieces.flatten = [])
    (hpos : 0 < r.block) (n : Nat) : r.readMany n = some (List.replicate n .closed) := by
  cases n with
  | zero => rfl
  | succ n =>
    by_cases hopen : r.isOpen = true
    · have hdelivers : r.source.Delivers [] [] := hsource ▸ Source.delivers_ofPieces hpieces
      exact readMany_stopped (readNext_ended hopen hpos hdelivers) rfl n
    · exact readMany_closed (by simpa using hopen) (n + 1)

def ofPeer (t : Encryptor) (block limit : Nat) (codec : Codec) (source : Source) : FrameReader :=
  ⟨t.peer, block, limit, codec, source, true⟩

section

variable {block limit : Nat} {codec : Codec} {t t' last : Encryptor} {rest : Bytes}
  {source tail : Source}

theorem readNext_parcel {p : Parcel} (h : t.Packs block limit codec p t')
    (hcodec : codec.Inverts) (hblock : Cipher.blockLength ∣ block)
    (hsource : source.Delivers (p.frame ++ rest) tail) :
    ∃ others : Source, others.Delivers rest tail ∧
      (ofPeer t block limit codec source).readNext =
        .outcome p.outcome (ofPeer t' block limit codec others) := by
  obtain ⟨payload, hpayload, hlimit, hencloses⟩ := h.payload
  obtain ⟨others, hdelivers, hread⟩ :=
    readNext_enclosed (r := ofPeer t block limit codec source) hencloses rfl rfl hblock hlimit
      hsource
  have houtcome := decodePayload_payloadIn hcodec p.frame.length hpayload hencloses.greatest
  have hkeeps : (p.order.outcome p.frame.length).keepsOpen = true := by
    cases p.order <;> rfl
  refine ⟨others, hdelivers, ?_⟩
  rw [hread]
  simp only [ofPeer, houtcome, hkeeps, Parcel.outcome]

theorem readNext_parcel_waits {p : Parcel} {front : Bytes} (h : t.Packs block limit codec p t')
    (hblock : Cipher.blockLength ∣ block) (hfront : front <+: p.frame)
    (hlength : front.length < p.frame.length) (hsource : source.Delivers front .live) :
    (ofPeer t block limit codec source).readNext = .waiting := by
  obtain ⟨payload, -, hlimit, hencloses⟩ := h.payload
  exact readNext_waits (r := ofPeer t block limit codec source) hencloses rfl rfl hblock hlimit
    hfront hlength hsource

theorem readMany_parcels {parcels : List Parcel} (h : t.PacksAll block limit codec parcels last)
    (hcodec : codec.Inverts) (hblock : Cipher.blockLength ∣ block)
    (hsource : source.Delivers (Parcel.wire parcels ++ rest) tail) :
    ∃ others : Source, others.Delivers rest tail ∧ ∀ n,
      (ofPeer t block limit codec source).readMany (parcels.length + n) =
        ((ofPeer last block limit codec others).readMany n).map
          (parcels.map Parcel.outcome ++ ·) := by
  induction h generalizing source with
  | nil t =>
    refine ⟨source, hsource, ?_⟩
    intro n
    simp
  | cons head _ ih =>
    rw [Parcel.wire, List.flatMap_cons, List.append_assoc] at hsource
    obtain ⟨middle, hmiddle, hread⟩ := readNext_parcel head hcodec hblock hsource
    obtain ⟨others, hothers, hrun⟩ := ih hmiddle
    refine ⟨others, hothers, ?_⟩
    intro n
    rw [List.length_cons, Nat.add_right_comm, readMany, hread]
    simp only [hrun, Option.map_map]
    rfl

end

end FrameReader

end CipherLink
