import CipherLink.Proofs.FailingSinks

/-!
# Streams that are cut off

However the orders of a writer fare, its sink has taken a front of the frames that were
handed to it. A reader of any front of these bytes reads the frames that are whole in it,
and tells a clean end from a frame that is cut off; of such a frame it makes nothing.
-/

namespace CipherLink

namespace FrameWriter

variable {w : FrameWriter}

theorem parcels_closed (hclosed : w.isOpen = false) (steps : List WriterStep) :
    (w.deeds steps).filterMap Deed.parcel? = [] := by
  rw [List.filterMap_eq_nil_iff]
  intro deed hmem
  rw [Deed.parcel?, ((after_closed hclosed steps).2.2 deed hmem).1, Option.map_none]

theorem parcels_order (w : FrameWriter) (order : FrameOrder) (noise : Noise)
    (steps : List WriterStep) :
    (w.deeds (.order order noise :: steps)).filterMap Deed.parcel? =
      ((w.frame? order noise).map (Parcel.mk order)).toList ++
        ((w.step (.order order noise)).deeds steps).filterMap Deed.parcel? := by
  rw [deeds, deed?, List.filterMap_append]
  cases w.frame? order noise <;> rfl

/-- The frames that are handed to the sink go through one chain, and the sink takes a front
of them. -/
theorem exists_produced (w : FrameWriter) (steps : List WriterStep) :
    ∃ last produced, w.encryptor.PacksAll w.block w.limit w.codec
        ((w.deeds steps).filterMap Deed.parcel?) last ∧
      produced <+: Parcel.wire ((w.deeds steps).filterMap Deed.parcel?) ∧
      (w.after steps).sink.taken = w.sink.taken ++ produced := by
  induction steps generalizing w with
  | nil => exact ⟨_, [], .nil _, List.nil_prefix, (List.append_nil _).symm⟩
  | cons step steps ih =>
    have hafter : w.after (step :: steps) = (w.step step).after steps := rfl
    cases step with
    | shutdown => exact ih w.shutdown
    | turn room flushFault shutdownFault =>
      exact ih { w with sink := { w.sink with room, flushFault, shutdownFault } }
    | order order noise =>
      obtain ⟨hframe, hsame, -⟩ | ⟨frame, encryptor, -, hframe, hpacks, hperform⟩ :=
        w.perform_cases order noise
      · rw [parcels_order, hframe, hafter, hsame]
        exact ih w
      · have hstep : w.step (.order order noise) = (w.deliver frame encryptor).2 := by
          rw [step, hperform]
        rw [parcels_order, hframe, hafter, hstep]
        obtain hdeliver | ⟨part, fault, hpart, hdeliver⟩ := w.deliver_cases frame encryptor
        · obtain ⟨last, produced, hpacked, hproduced, htaken⟩ := ih (w.afterFrame frame encryptor)
          rw [hdeliver]
          refine ⟨last, frame ++ produced, .cons hpacks hpacked, ?_, ?_⟩
          · exact (List.prefix_append_right_inj frame).mpr hproduced
          · rw [htaken, afterFrame, List.append_assoc]
        · -- The writer is closed from here on, so the frame is the last that was handed over.
          have hclosed :
              ({ w.afterFrame part encryptor with isOpen := false } : FrameWriter).isOpen = false :=
            rfl
          rw [hdeliver, parcels_closed hclosed, (after_closed hclosed steps).2.1]
          refine ⟨encryptor, part, .cons hpacks (.nil _), ?_, rfl⟩
          simpa [Parcel.wire] using hpart

end FrameWriter

/-- What a reader has to make of frames of which it gets only so many bytes: it reads those
that are whole, and then tells how the stream ends. -/
def Parcel.cutOff (block : Nat) : Nat → List Parcel → List ReadOutcome
  | _, [] => [.closed]
  | position, p :: parcels =>
    if p.frame.length ≤ position then
      p.outcome :: cutOff block (position - p.frame.length) parcels
    else [FrameReader.cutOutcome block p.frame.length position]

namespace FrameReader

theorem readMany_cutOff {block limit : Nat} {codec : Codec} {t last : Encryptor}
    {parcels : List Parcel} (h : t.PacksAll block limit codec parcels last)
    (hcodec : codec.Inverts) (hpos : 0 < block) (hblock : Cipher.blockLength ∣ block)
    {front : Bytes} (hfront : front <+: Parcel.wire parcels) {source : Source}
    (hsource : source.Delivers front []) (n : Nat) :
    (ofPeer t block limit codec source).readMany
        ((Parcel.cutOff block front.length parcels).length + n) =
      some (Parcel.cutOff block front.length parcels ++ List.replicate n .closed) := by
  induction h generalizing front source with
  | nil t =>
    obtain rfl := List.prefix_nil.mp hfront
    rw [Parcel.cutOff, List.length_singleton, Nat.add_comm]
    exact readMany_stopped (readNext_ended rfl hpos hsource) rfl n
  | @cons t _ _ p parcels head _ ih =>
    rw [Parcel.cutOff]
    by_cases hwhole : p.frame.length ≤ front.length
    · obtain ⟨rest, rfl⟩ : p.frame <+: front :=
        List.prefix_of_prefix_length_le (List.prefix_append _ _) hfront hwhole
      have hrest : rest <+: Parcel.wire parcels := (List.prefix_append_right_inj p.frame).mp hfront
      obtain ⟨others, hothers, hread⟩ := readNext_parcel head hcodec hblock hsource
      have hmany := ih hrest hothers
      rw [if_pos hwhole, List.length_append, Nat.add_sub_cancel_left, List.length_cons,
        Nat.add_right_comm, readMany, hread]
      simp only [hmany, Option.map_some, List.cons_append]
    · obtain ⟨payload, -, hlimit, hencloses⟩ := head.payload
      have hcut : front <+: p.frame :=
        List.prefix_of_prefix_length_le hfront (List.prefix_append _ _) (by omega)
      obtain ⟨next, hclosed, hread⟩ := readNext_cut
        (r := ofPeer t block limit codec source) hencloses rfl rfl hblock hlimit hcut (by omega)
        hsource
      rw [if_neg hwhole, List.length_singleton, Nat.add_comm]
      exact readMany_stopped hread hclosed n

end FrameReader

/-- Wherever the bytes that a writer has produced are cut, a reader of the same package that
gets the front of them reads the frames that lie wholly in it, in order. Then it is closed
if the cut is between two frames, and otherwise reports how many bytes of the first block or
of the frame there were; and it is closed from then on. -/
theorem cut_stream_reads_whole_frames {a : SymmetricAlgorithm} {package : KeyPackage}
    {encryptor : Encryptor} (hkey : a.encryptor package = .ok encryptor) {block : Nat}
    (hpos : 0 < block) (hblock : 16 ∣ block) (limit : Nat) {codec : Codec}
    (hcodec : codec.Inverts) (sink : Sink) (steps : List WriterStep) :
    let w : FrameWriter := ⟨encryptor, block, limit, codec, sink, true⟩
    let parcels := (w.deeds steps).filterMap Deed.parcel?
    ∃ decryptor produced, a.decryptor package = .ok decryptor ∧
      (w.after steps).sink.taken = sink.taken ++ produced ∧ produced <+: Parcel.wire parcels ∧
      ∀ cut ≤ produced.length, ∀ readerLimit ≥ limit, ∀ pieces : List Bytes,
        pieces.flatten = produced.take cut → ∀ n,
          FrameReader.readMany ⟨decryptor, block, readerLimit, codec, .ofPieces pieces, true⟩
              ((Parcel.cutOff block cut parcels).length + n) =
            some (Parcel.cutOff block cut parcels ++ List.replicate n .closed) := by
  intro w parcels
  obtain ⟨last, produced, hpacked, hproduced, htaken⟩ := w.exists_produced steps
  refine ⟨encryptor.peer, produced, SymmetricAlgorithm.decryptor_of_encryptor hkey, htaken,
    hproduced, ?_⟩
  intro cut hcut readerLimit hlimit pieces hpieces n
  have hlength : (produced.take cut).length = cut := List.length_take_of_le hcut
  have hread := FrameReader.readMany_cutOff (hpacked.mono hlimit) hcodec hpos hblock
    ((List.take_prefix cut produced).trans hproduced) (Source.delivers_ofPieces hpieces) n
  rw [hlength] at hread
  exact hread

/-- An empty frame and a message of four blocks, cut off in the second block of the message. -/
theorem cut_stream_reads_whole_frames_at :
    let package : KeyPackage := ⟨List.replicate 16 1, List.replicate 16 2⟩
    let steps : List WriterStep := [.order .empty fun _ => 8,
      .order (.message ⟨-7, some (.ofNat 3), [1, 2, 3]⟩) fun _ => 9]
    0 < 16 ∧ 16 ∣ 16 ∧ Codec.records.Inverts ∧
    ∃ encryptor decryptor produced, (SymmetricAlgorithm.aes 128).encryptor package = .ok encryptor ∧
      (SymmetricAlgorithm.aes 128).decryptor package = .ok decryptor ∧
      (FrameWriter.after ⟨encryptor, 16, 64, .records, .endless, true⟩ steps).sink.taken =
        [] ++ produced ∧ 37 ≤ produced.length ∧
      ∀ pieces : List Bytes, pieces.flatten = produced.take 37 → ∀ n,
        FrameReader.readMany ⟨decryptor, 16, 64, .records, .ofPieces pieces, true⟩ (2 + n) =
          some ([.empty 16, .error (.truncated 64 21)] ++ List.replicate n .closed) := by
  intro package steps
  have hrun : ((SymmetricAlgorithm.aes 128).encryptor package).toOption.map (fun encryptor =>
      let w : FrameWriter := ⟨encryptor, 16, 64, .records, .endless, true⟩
      ((w.after steps).sink.taken.length,
        Parcel.cutOff 16 37 ((w.deeds steps).filterMap Deed.parcel?))) =
        some (80, [.empty 16, .error (.truncated 64 21)]) := by
    decide +kernel
  obtain ⟨encryptor, hkey, hrun⟩ := Option.map_eq_some_iff.mp hrun
  have hkey := eq_ok_of_toOption hkey
  obtain ⟨hlength, houtcomes⟩ := Prod.mk.inj hrun
  obtain ⟨decryptor, produced, hdecryptor, htaken, -, hread⟩ := cut_stream_reads_whole_frames hkey
    (show 0 < 16 by decide) (by decide) 64 Codec.records_inverts .endless steps
  have hlong : 37 ≤ produced.length := by
    rw [htaken, Sink.endless, List.nil_append] at hlength
    omega
  refine ⟨by decide, by decide, Codec.records_inverts, encryptor, decryptor, produced, hkey,
    hdecryptor, htaken, hlong, ?_⟩
  intro pieces hpieces n
  have hmany := hread 37 hlong 64 (Nat.le_refl 64) pieces hpieces n
  rw [houtcomes] at hmany
  exact hmany

end CipherLink
