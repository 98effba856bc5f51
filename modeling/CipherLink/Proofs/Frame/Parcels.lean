import CipherLink.Proofs.Frame.Reading
import CipherLink.Server.Texts

/-!
# Frames of a writer that stays open

A writer that is still open behind a write has put the whole frame on its sink, or has
refused the message. Over any number of writes the bytes on the sink are whole frames
in one chain, and a reader that is the peer of the writer reads just these.
-/

namespace CipherLink

def Parcel.message? (p : Parcel) : Option Message :=
  match p.order with
  | .message message => some message
  | .empty => none

theorem Parcel.message?_outcome (p : Parcel) : p.outcome.message? = p.message? := by
  obtain ⟨order, frame⟩ := p
  cases order <;> rfl

namespace FrameWriter

structure Writes (w : FrameWriter) (parcels : List Parcel) (w' : FrameWriter) : Prop where
  next : w' = w.afterFrame (Parcel.wire parcels) w'.encryptor
  packed : w.encryptor.PacksAll w.block w.limit w.codec parcels w'.encryptor

theorem writes_nil (w : FrameWriter) : w.Writes [] w where
  next := by simp [afterFrame, Parcel.wire]
  packed := .nil _

theorem Writes.append {w w' w'' : FrameWriter} {parcels others : List Parcel}
    (h : w.Writes parcels w') (hothers : w'.Writes others w'') :
    w.Writes (parcels ++ others) w'' where
  next := by
    rw [hothers.next, h.next]
    simp [afterFrame, Parcel.wire]
  packed := by
    have hpacked := hothers.packed
    rw [h.next] at hpacked
    exact h.packed.append hpacked

theorem Writes.regular {w w' : FrameWriter} {parcels : List Parcel} (h : w.Writes parcels w')
    (hw : w.Regular) : w'.Regular := by
  rw [h.next]
  exact ⟨hw.codec, hw.positive, hw.whole, hw.bounded⟩

theorem Writes.fits_iff {w w' : FrameWriter} {parcels : List Parcel} (h : w.Writes parcels w')
    (message : Message) : w'.Fits message ↔ w.Fits message := by
  rw [h.next]
  rfl

variable {w w' : FrameWriter} {message : Message} {noise : Noise} {result : Except FrameError Nat}

theorem writes_of_pack {frame : Bytes} {encryptor : Encryptor}
    (hpack : w.pack (.message message) noise = some (.ok (frame, encryptor)))
    (h : w.write message noise = some (result, w')) (hopen : w'.isOpen = true) :
    w.Writes [⟨.message message, frame⟩] w' := by
  obtain ⟨hcomes, hperform⟩ := w.comes_pack (.message message) noise
  rw [hpack] at hcomes hperform
  change w.write message noise = _ at hperform
  rw [h, Option.map_some, conclude, Option.some.injEq] at hperform
  cases hcomes with
  | @packed payload _ _ hpayload isOpen limit encloses =>
    obtain hdeliver | ⟨part, fault, -, hdeliver⟩ := w.deliver_cases frame encryptor
    · rw [hdeliver, Prod.mk.injEq] at hperform
      obtain ⟨-, rfl⟩ := hperform
      refine ⟨?_, .cons ⟨payload, hpayload, limit, encloses⟩ (.nil _)⟩
      simp [afterFrame, Parcel.wire]
    · rw [hdeliver, Prod.mk.injEq] at hperform
      rw [hperform.2] at hopen
      simp at hopen

theorem write_cases (h : w.write message noise = some (result, w')) (hopen : w'.isOpen = true) :
    (∃ frame, w.Writes [⟨.message message, frame⟩] w') ∨ w' = w := by
  cases hpack : w.pack (.message message) noise with
  | none =>
    have hperform := (w.comes_pack (.message message) noise).2
    rw [hpack] at hperform
    change w.write message noise = none at hperform
    simp [h] at hperform
  | some outcome =>
    cases outcome with
    | error cause =>
      right
      have hperform := (w.comes_pack (.message message) noise).2
      rw [hpack] at hperform
      change w.write message noise = some (.error cause, w) at hperform
      rw [h, Option.some.injEq, Prod.mk.injEq] at hperform
      exact hperform.2
    | ok packed => exact .inl ⟨packed.1, writes_of_pack hpack h hopen⟩

theorem exists_paddedLength {length block : Nat} (hlength : length < UInt32.size)
    (hpos : 0 < block) (hbound : block < UInt32.size) :
    ∃ total, Frame.paddedLength? length block = some total := by
  refine Frame.exists_paddedLength hpos ?_
  simp only [Frame.prefixLength, Frame.wordBound, UInt64.size, UInt32.size] at *
  omega

theorem exists_pack (hw : w.Regular) (hopen : w.isOpen = true) (hfits : w.Fits message)
    (noise : Noise) :
    ∃ frame encryptor, w.pack (.message message) noise = some (.ok (frame, encryptor)) := by
  obtain ⟨hlimit, hgreatest⟩ := hfits
  have hword := Nat.lt_of_le_of_lt hgreatest (by decide : Frame.greatestLength < UInt32.size)
  obtain ⟨total, htotal⟩ := exists_paddedLength hword hw.positive hw.bounded
  obtain ⟨hused, -, hmultiple⟩ := Frame.paddedLength?_eq_some htotal
  have haligned : Cipher.blockLength ∣
      (plainFrame (Recorded.encode message) total noise).length := by
    rw [length_plainFrame hused]
    exact Nat.dvd_trans hw.whole hmultiple
  obtain ⟨frame, encryptor, happly⟩ := w.encryptor.exists_apply haligned
  have hplain := plainFrame?_eq_some hused noise
  refine ⟨frame, encryptor, ?_⟩
  have hsize : ¬w.limit < Recorded.encodedSize message := by
    rw [← Recorded.length_encode]
    omega
  have hlimit' : ¬w.limit < (Recorded.encode message).length := by omega
  have hgreatest' : ¬Frame.greatestLength < (Recorded.encode message).length := by omega
  have htotal' : Frame.paddedLength? (Recorded.encodedSize message) w.block = some total := by
    rw [← Recorded.length_encode, htotal]
  simp [pack, perform, write, hw.codec, Codec.records_encode, Codec.records_size, hsize, htotal', send, hopen, hlimit',
    hgreatest', htotal, hplain, happly, deliver, Sink.writeFlush, Sink.write, Sink.endless]

end FrameWriter

theorem Encryptor.PacksAll.within {block limit limit' : Nat} {t last : Encryptor}
    {parcels : List Parcel} (h : t.PacksAll block limit .records parcels last)
    (hwithin : ∀ message ∈ parcels.filterMap Parcel.message?,
      (Recorded.encode message).length ≤ limit') :
    t.PacksAll block limit' .records parcels last := by
  induction h with
  | nil t => exact .nil t
  | @cons _ _ _ p parcels head _ ih =>
    obtain ⟨payload, hpayload, -, hencloses⟩ := head.payload
    refine .cons ⟨payload, hpayload, ?_, hencloses⟩ (ih ?_)
    · obtain ⟨order, frame⟩ := p
      cases order with
      | message message =>
        obtain rfl := Codec.eq_of_records_encode hpayload
        exact hwithin message (by simp [Parcel.message?])
      | empty =>
        obtain rfl := Except.ok.inj hpayload
        exact Nat.zero_le _
    · intro message hmessage
      refine hwithin message ?_
      rw [List.filterMap_cons]
      split
      · exact hmessage
      · exact List.mem_cons_of_mem _ hmessage

theorem FrameReader.hears_parcels {block limit : Nat} {t last : Encryptor}
    {parcels : List Parcel} (h : t.PacksAll block limit .records parcels last)
    (hpos : 0 < block) (hwhole : Cipher.blockLength ∣ block) {source : Source}
    (hsource : source.Delivers (Parcel.wire parcels) .live) :
    (ofPeer t block limit .records source).Hears (parcels.map Parcel.outcome) := by
  induction h generalizing source with
  | nil t => exact readNext_silent rfl hpos hsource
  | cons head _ ih =>
    rw [Parcel.wire, List.flatMap_cons] at hsource
    obtain ⟨others, hothers, hread⟩ := readNext_parcel head Codec.records_inverts hwhole hsource
    exact ⟨_, hread, ih hothers⟩

end CipherLink
