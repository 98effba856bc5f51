import CipherLink.Frame.Steps
import CipherLink.Proofs.Frame.Reading

/-!
# Sinks that fail

However a sink fails, it has taken the frames of the orders that succeeded and at
most a front of one more, the frame of the order that was reported as failed. The
writer is closed from then on. A reader at the other end reads the frames that
are whole and nothing else.
-/

namespace CipherLink

namespace FrameWriter

variable {w : FrameWriter}

theorem pack_closed (hclosed : w.isOpen = false) (order : FrameOrder) (noise : Noise) :
    w.pack order noise = none ∨ ∃ cause, (∀ fault, cause ≠ .transport fault) ∧
      w.pack order noise = some (.error cause) := by
  have hcomes := (w.comes_pack order noise).1
  generalize w.pack order noise = outcome at hcomes
  cases hcomes with
  | broken => exact .inl rfl
  | refused _ h => exact .inr ⟨_, h, rfl⟩
  | packed _ hopen => simp [hclosed] at hopen

theorem step_closed (hclosed : w.isOpen = false) (step : WriterStep) :
    (w.step step).isOpen = false ∧ (w.step step).sink.taken = w.sink.taken ∧
      ∀ deed, w.deed? step = some deed → deed.frame = none ∧
        ∀ size, deed.result ≠ some (.ok size) := by
  cases step with
  | order order noise =>
    have hperform := (w.comes_pack order noise).2
    obtain hpack | ⟨cause, -, hpack⟩ := pack_closed hclosed order noise <;>
    · rw [hpack] at hperform
      simp [step, deed?, frame?, hperform, hpack, conclude, hclosed]
  | shutdown => simp [step, deed?, shutdown]
  | turn room flushFault shutdownFault => simp [step, deed?, hclosed]

theorem after_closed (hclosed : w.isOpen = false) (steps : List WriterStep) :
    (w.after steps).isOpen = false ∧ (w.after steps).sink.taken = w.sink.taken ∧
      ∀ deed ∈ w.deeds steps, deed.frame = none ∧ ∀ size, deed.result ≠ some (.ok size) := by
  induction steps generalizing w with
  | nil => exact ⟨hclosed, rfl, nofun⟩
  | cons step steps ih =>
    obtain ⟨hnext, htaken, hdeed⟩ := step_closed hclosed step
    obtain ⟨hlast, hsame, hdeeds⟩ := ih hnext
    refine ⟨hlast, hsame.trans htaken, ?_⟩
    intro deed hmem
    rw [deeds, List.mem_append, Option.mem_toList] at hmem
    obtain hmem | hmem := hmem
    · exact hdeed deed hmem
    · exact hdeeds deed hmem

theorem perform_cases (w : FrameWriter) (order : FrameOrder) (noise : Noise) :
    (w.frame? order noise = none ∧ w.step (.order order noise) = w ∧
      ∀ size, (w.perform order noise).map Prod.fst ≠ some (.ok size)) ∨
    ∃ frame encryptor, w.isOpen = true ∧ w.frame? order noise = some frame ∧
      w.encryptor.Packs w.block w.limit w.codec ⟨order, frame⟩ encryptor ∧
      w.perform order noise = some (w.deliver frame encryptor) := by
  obtain ⟨hcomes, hperform⟩ := w.comes_pack order noise
  cases hpack : w.pack order noise with
  | none =>
    left
    simp [frame?, step, hperform, hpack]
  | some outcome =>
    rw [hpack] at hcomes hperform
    cases hcomes with
    | refused =>
      left
      simp [frame?, step, hperform, hpack, conclude]
    | @packed payload frame encryptor hpayload isOpen limit encloses =>
      right
      refine ⟨frame, encryptor, isOpen, ?_, ⟨payload, hpayload, limit, encloses⟩, hperform⟩
      simp [frame?, hpack]

/-- A run in which the frames of `done` were taken and acknowledged, and of the
frames of `lost` at most a part. -/
structure Course (w : FrameWriter) (steps : List WriterStep) (done lost : List Parcel)
    (part : Bytes) : Prop where
  packed : ∃ middle last, w.encryptor.PacksAll w.block w.limit w.codec done middle ∧
    middle.PacksAll w.block w.limit w.codec lost last
  single : lost.length ≤ 1
  part_le : part <+: Parcel.wire lost
  taken : (w.after steps).sink.taken = w.sink.taken ++ Parcel.wire done ++ part
  acknowledged : (w.deeds steps).filterMap Deed.acknowledged = done.map Parcel.outcome
  failed : (w.deeds steps).filterMap Deed.failed = lost.map Parcel.outcome
  handed : (w.deeds steps).filterMap Deed.frame = (done ++ lost).map Parcel.frame

theorem acknowledged_eq_none {deed : Deed} (h : ∀ size, deed.result ≠ some (.ok size)) :
    deed.acknowledged = none := by
  obtain ⟨order, frame, result⟩ := deed
  rcases result with _ | _ | size
  · rfl
  · rfl
  · exact absurd rfl (h size)

theorem failed_eq_none {deed : Deed} (h : deed.frame = none) : deed.failed = none := by
  obtain ⟨order, frame, result⟩ := deed
  obtain rfl : frame = none := h
  rfl

theorem filterMap_closed (hclosed : w.isOpen = false) (steps : List WriterStep) :
    (w.deeds steps).filterMap Deed.acknowledged = [] ∧
      (w.deeds steps).filterMap Deed.failed = [] ∧
      (w.deeds steps).filterMap Deed.frame = [] := by
  have hdeeds := (after_closed hclosed steps).2.2
  simp only [List.filterMap_eq_nil_iff]
  refine ⟨?_, ?_, ?_⟩
  · intro deed hmem
    exact acknowledged_eq_none (hdeeds deed hmem).2
  · intro deed hmem
    exact failed_eq_none (hdeeds deed hmem).1
  · intro deed hmem
    exact (hdeeds deed hmem).1

theorem course_closed (hclosed : w.isOpen = false) (steps : List WriterStep) :
    w.Course steps [] [] [] where
  packed := ⟨_, _, .nil _, .nil _⟩
  single := Nat.zero_le 1
  part_le := List.prefix_refl []
  taken := by simpa [Parcel.wire] using (after_closed hclosed steps).2.1
  acknowledged := (filterMap_closed hclosed steps).1
  failed := (filterMap_closed hclosed steps).2.1
  handed := (filterMap_closed hclosed steps).2.2

section

variable {steps : List WriterStep} {done lost : List Parcel} {part : Bytes}

theorem Course.cons_quiet {step : WriterStep} (h : (w.step step).Course steps done lost part)
    (hwriter : ∃ sink isOpen, w.step step = { w with sink, isOpen } ∧ sink.taken = w.sink.taken)
    (hdeed : ∀ deed, w.deed? step = some deed →
      deed.acknowledged = none ∧ deed.failed = none ∧ deed.frame = none) :
    w.Course (step :: steps) done lost part := by
  obtain ⟨sink, isOpen, hstep, hsame⟩ := hwriter
  have htaken := h.taken
  have hpacked := h.packed
  rw [hstep] at hpacked
  refine ⟨hpacked, h.single, h.part_le, ?_, ?_, ?_, ?_⟩
  · rw [after, List.foldl_cons, ← after, htaken, hstep, hsame]
  all_goals
    rw [deeds, List.filterMap_append]
    cases hstep : w.deed? step with
    | none => simp [h.acknowledged, h.failed, h.handed]
    | some deed => simp [hdeed deed hstep, h.acknowledged, h.failed, h.handed]

variable {order : FrameOrder} {noise : Noise} {frame : Bytes} {encryptor : Encryptor}

theorem Course.cons_done
    (hpacks : w.encryptor.Packs w.block w.limit w.codec ⟨order, frame⟩ encryptor)
    (hframe : w.frame? order noise = some frame)
    (hperform : w.perform order noise = some (.ok frame.length, w.afterFrame frame encryptor))
    (h : (w.afterFrame frame encryptor).Course steps done lost part) :
    w.Course (.order order noise :: steps) (⟨order, frame⟩ :: done) lost part := by
  obtain ⟨middle, last, hdone, hlost⟩ := h.packed
  have hdeeds : w.deeds (.order order noise :: steps) =
      ⟨order, some frame, some (.ok frame.length)⟩ ::
        (w.afterFrame frame encryptor).deeds steps := by
    simp [deeds, deed?, step, hframe, hperform]
  refine ⟨⟨middle, last, .cons hpacks hdone, hlost⟩, h.single, h.part_le, ?_, ?_, ?_, ?_⟩
  · rw [after, List.foldl_cons, step, hperform, ← after, h.taken]
    simp [afterFrame, Parcel.wire]
  · simp only [hdeeds, List.filterMap_cons, Deed.acknowledged, h.acknowledged, List.map_cons,
      Parcel.outcome]
  · simp only [hdeeds, List.filterMap_cons, Deed.failed, h.failed]
  · simp only [hdeeds, List.filterMap_cons, h.handed, List.cons_append, List.map_cons]

theorem course_failed (hpacks : w.encryptor.Packs w.block w.limit w.codec ⟨order, frame⟩ encryptor)
    (hframe : w.frame? order noise = some frame) {fault : StreamFault} (hpart : part <+: frame)
    (hperform : w.perform order noise =
      some (.error (.transport fault), { w.afterFrame part encryptor with isOpen := false }))
    (steps : List WriterStep) :
    w.Course (.order order noise :: steps) [] [⟨order, frame⟩] part := by
  have hclosed := course_closed
    (w := { w.afterFrame part encryptor with isOpen := false }) rfl steps
  have hdeeds : w.deeds (.order order noise :: steps) =
      ⟨order, some frame, some (.error (.transport fault))⟩ ::
        deeds { w.afterFrame part encryptor with isOpen := false } steps := by
    simp [deeds, deed?, step, hframe, hperform]
  refine ⟨⟨_, _, .nil _, .cons hpacks (.nil _)⟩, Nat.le_refl 1, ?_, ?_, ?_, ?_, ?_⟩
  · simpa [Parcel.wire] using hpart
  · rw [after, List.foldl_cons, step, hperform, ← after, hclosed.taken]
    simp [afterFrame, Parcel.wire]
  · simp only [hdeeds, List.filterMap_cons, Deed.acknowledged, hclosed.acknowledged]
  · simp only [hdeeds, List.filterMap_cons, Deed.failed, hclosed.failed, List.map_cons,
      Parcel.outcome]
  · simp only [hdeeds, List.filterMap_cons, hclosed.handed, List.nil_append, List.map_cons]

end

theorem exists_course (w : FrameWriter) (steps : List WriterStep) :
    ∃ done lost part, w.Course steps done lost part := by
  induction steps generalizing w with
  | nil =>
    exact ⟨[], [], [], ⟨_, _, .nil _, .nil _⟩, Nat.zero_le 1, List.prefix_refl [],
      by simp [after, Parcel.wire], rfl, rfl, rfl⟩
  | cons step steps ih =>
    obtain ⟨done, lost, part, hcourse⟩ := ih (w.step step)
    cases step with
    | order order noise =>
      obtain ⟨hframe, hsame, hresult⟩ | ⟨frame, encryptor, -, hframe, hpacks, hperform⟩ :=
        w.perform_cases order noise
      · refine ⟨done, lost, part, hcourse.cons_quiet ⟨w.sink, w.isOpen, hsame, rfl⟩ ?_⟩
        intro deed hdeed
        obtain rfl := Option.some.inj hdeed
        exact ⟨acknowledged_eq_none hresult, failed_eq_none hframe, hframe⟩
      · obtain hdeliver | ⟨taken, fault, htaken, hdeliver⟩ := w.deliver_cases frame encryptor
        · rw [hdeliver] at hperform
          rw [step, hperform] at hcourse
          exact ⟨_, lost, part, hcourse.cons_done hpacks hframe hperform⟩
        · rw [hdeliver] at hperform
          exact ⟨[], _, taken, course_failed hpacks hframe htaken hperform steps⟩
    | shutdown => exact ⟨done, lost, part, hcourse.cons_quiet ⟨w.sink, false, rfl, rfl⟩ (by rintro _ ⟨⟩)⟩
    | turn room flushFault shutdownFault =>
      exact ⟨done, lost, part, hcourse.cons_quiet ⟨_, w.isOpen, rfl, rfl⟩ (by rintro _ ⟨⟩)⟩

theorem Course.read {steps : List WriterStep} {done lost : List Parcel} {part : Bytes}
    (h : w.Course steps done lost part) (hcodec : w.codec.Inverts) (hpos : 0 < w.block)
    (hblock : Cipher.blockLength ∣ w.block) {limit : Nat} (hlimit : w.limit ≤ limit)
    {pieces : List Bytes} (hpieces : pieces.flatten = Parcel.wire done ++ part) :
    ∃ further ending, further <+: lost.map Parcel.outcome ∧
      (ending = .closed ∨ ∃ expected got, ending = .error (.truncated expected got)) ∧
      ∀ n, (FrameReader.ofPeer w.encryptor w.block limit w.codec (.ofPieces pieces)).readMany
          (done.length + (further.length + (n + 1))) =
        some (done.map Parcel.outcome ++ (further ++ ending :: List.replicate n .closed)) := by
  obtain ⟨middle, last, hdone, hlost⟩ := h.packed
  obtain ⟨others, hothers, hrun⟩ := FrameReader.readMany_parcels (hdone.mono hlimit) hcodec hblock
    (Source.delivers_ofPieces hpieces)
  suffices hrest : ∃ further ending, further <+: lost.map Parcel.outcome ∧
      (ending = .closed ∨ ∃ expected got, ending = .error (.truncated expected got)) ∧
      ∀ n, (FrameReader.ofPeer middle w.block limit w.codec others).readMany
          (further.length + (n + 1)) = some (further ++ ending :: List.replicate n .closed) by
    obtain ⟨further, ending, hfurther, hending, hread⟩ := hrest
    refine ⟨further, ending, hfurther, hending, ?_⟩
    intro n
    rw [hrun, hread, Option.map_some]
  have hpart := h.part_le
  have hsingle := h.single
  cases hlost with
  | nil =>
    obtain rfl := List.prefix_nil.mp hpart
    refine ⟨[], .closed, List.prefix_refl [], .inl rfl, ?_⟩
    intro n
    rw [List.length_nil, Nat.zero_add, List.nil_append]
    exact FrameReader.readMany_stopped (FrameReader.readNext_ended rfl hpos hothers) rfl n
  | @cons _ lastly _ p parcels head tail =>
    obtain rfl : parcels = [] := List.eq_nil_of_length_eq_zero (by simpa using hsingle)
    rw [Parcel.wire, List.flatMap_singleton] at hpart
    obtain ⟨payload, hpayload, hwithin, hencloses⟩ := head.payload
    have hle : payload.length ≤ limit := Nat.le_trans hwithin hlimit
    by_cases hcut : part.length < p.frame.length
    · obtain ⟨next, hclosed, hread⟩ := FrameReader.readNext_cut
        (r := .ofPeer middle w.block limit w.codec others) hencloses rfl rfl hblock hle hpart hcut
        hothers
      refine ⟨[], _, List.nil_prefix,
        FrameReader.cutOutcome_cases w.block p.frame.length part.length, ?_⟩
      intro n
      rw [List.length_nil, Nat.zero_add, List.nil_append]
      exact FrameReader.readMany_stopped hread hclosed n
    · obtain rfl : part = p.frame := hpart.eq_of_length_le (by omega)
      rw [← List.append_nil p.frame] at hothers
      have hpacks : middle.Packs w.block limit w.codec p lastly :=
        ⟨payload, hpayload, hle, hencloses⟩
      obtain ⟨ended, hended, hread⟩ := FrameReader.readNext_parcel hpacks hcodec hblock hothers
      refine ⟨[p.outcome], .closed, List.prefix_refl _, .inl rfl, ?_⟩
      intro n
      have hstopped := FrameReader.readMany_stopped
        (FrameReader.readNext_ended (r := .ofPeer lastly w.block limit w.codec ended) rfl hpos
          hended) rfl n
      rw [List.length_singleton, Nat.add_comm, FrameReader.readMany, hread]
      simp only [hstopped, Option.map_some, List.singleton_append]

theorem after_append (w : FrameWriter) (steps later : List WriterStep) :
    w.after (steps ++ later) = (w.after steps).after later :=
  List.foldl_append

/-- A step that closes an open writer: a shutdown, or an order that the sink failed. -/
def Breaks (w : FrameWriter) (step : WriterStep) : Prop :=
  step = .shutdown ∨ ∃ deed fault, w.deed? step = some deed ∧
    deed.result = some (.error (.transport fault))

theorem step_breaks {step : WriterStep} (h : w.Breaks step) : (w.step step).isOpen = false := by
  obtain rfl | ⟨deed, fault, hdeed, hresult⟩ := h
  · rfl
  · cases step with
    | shutdown => simp [deed?] at hdeed
    | turn room flushFault shutdownFault => simp [deed?] at hdeed
    | order order noise =>
      obtain rfl := Option.some.inj hdeed
      obtain ⟨hcomes, hperform⟩ := w.comes_pack order noise
      cases hpack : w.pack order noise with
      | none => simp [hperform, hpack] at hresult
      | some outcome =>
        rw [hpack] at hcomes hperform
        cases hcomes with
        | refused _ hcause =>
          simp only [hperform, Option.map_some, conclude, Option.some.injEq, Except.error.injEq]
            at hresult
          exact absurd hresult (hcause fault)
        | @packed payload frame encryptor =>
          obtain hdeliver | ⟨part, fault, -, hdeliver⟩ := w.deliver_cases frame encryptor
          · simp [hperform, conclude, hdeliver] at hresult
          · simp [step, hperform, conclude, hdeliver]

theorem step_acknowledged {order : FrameOrder} {noise : Noise} {size : Nat}
    (h : (w.perform order noise).map Prod.fst = some (.ok size)) :
    ∃ frame, w.frame? order noise = some frame ∧ frame.length = size ∧
      (w.step (.order order noise)).sink.taken = w.sink.taken ++ frame := by
  obtain ⟨-, -, hresult⟩ | ⟨frame, encryptor, -, hframe, -, hperform⟩ := w.perform_cases order noise
  · exact absurd h (hresult size)
  · obtain hdeliver | ⟨part, fault, -, hdeliver⟩ := w.deliver_cases frame encryptor
    · rw [hdeliver] at hperform
      simp only [hperform, Option.map_some, Option.some.injEq, Except.ok.injEq] at h
      exact ⟨frame, hframe, h, by simp [step, hperform, afterFrame]⟩
    · simp [hperform, hdeliver] at h

end FrameWriter

/-- However the sink fails, at any time it has taken a front of the frames that
were handed to it, each acknowledged order has put exactly its frame there, and a
failed operation or a shutdown closes the writer for good. A reader at the other
end makes of it the acknowledged orders, at most the one that was reported as
failed, and an end. -/
theorem failing_sink_keeps_order {a : SymmetricAlgorithm} {package : KeyPackage}
    {encryptor : Encryptor} (hkey : a.encryptor package = .ok encryptor) {block : Nat}
    (hpos : 0 < block) (hblock : 16 ∣ block) (limit : Nat) (codec : Codec) (sink : Sink)
    (steps : List WriterStep) :
    let w : FrameWriter := ⟨encryptor, block, limit, codec, sink, true⟩
    ∃ decryptor written, a.decryptor package = .ok decryptor ∧
      (w.after steps).sink.taken = sink.taken ++ written ∧
      written <+: ((w.deeds steps).filterMap Deed.frame).flatten ∧
      (∀ before order noise later size, steps = before ++ .order order noise :: later →
        ((w.after before).perform order noise).map Prod.fst = some (.ok size) →
        ∃ frame, (w.after before).frame? order noise = some frame ∧ frame.length = size ∧
          (w.after (before ++ [.order order noise])).sink.taken =
            (w.after before).sink.taken ++ frame) ∧
      (∀ before step later, steps = before ++ step :: later → (w.after before).Breaks step →
        (w.after steps).isOpen = false ∧
        (w.after steps).sink.taken = (w.after (before ++ [step])).sink.taken ∧
        ∀ deed ∈ (w.after (before ++ [step])).deeds later, ∀ size, deed.result ≠ some (.ok size)) ∧
      (codec.Inverts → ∀ readerLimit pieces, limit ≤ readerLimit → pieces.flatten = written →
        ∃ further ending, further <+: (w.deeds steps).filterMap Deed.failed ∧ further.length ≤ 1 ∧
          (ending = .closed ∨ ∃ expected got, ending = .error (.truncated expected got)) ∧
          ∀ n, FrameReader.readMany ⟨decryptor, block, readerLimit, codec, .ofPieces pieces, true⟩
              (((w.deeds steps).filterMap Deed.acknowledged).length + (further.length + (n + 1))) =
            some ((w.deeds steps).filterMap Deed.acknowledged ++
              (further ++ ending :: List.replicate n .closed))) := by
  intro w
  obtain ⟨done, lost, part, hcourse⟩ := w.exists_course steps
  refine ⟨encryptor.peer, Parcel.wire done ++ part, SymmetricAlgorithm.decryptor_of_encryptor hkey,
    by rw [hcourse.taken, List.append_assoc], ?_, ?_, ?_, ?_⟩
  · rw [hcourse.handed, List.map_append, List.flatten_append, ← List.flatMap_def,
      ← List.flatMap_def]
    exact (List.prefix_append_right_inj _).mpr hcourse.part_le
  · rintro before order noise later size - hresult
    rw [FrameWriter.after_append]
    exact FrameWriter.step_acknowledged hresult
  · rintro before step later rfl hbreaks
    have hclosed := FrameWriter.step_breaks hbreaks
    rw [List.append_cons, FrameWriter.after_append, FrameWriter.after_append w before]
    obtain ⟨hlast, htaken, hdeeds⟩ := FrameWriter.after_closed hclosed later
    exact ⟨hlast, htaken, fun deed hmem => (hdeeds deed hmem).2⟩
  · intro hcodec readerLimit pieces hlimit hpieces
    obtain ⟨further, ending, hfurther, hending, hread⟩ :=
      hcourse.read hcodec hpos hblock hlimit hpieces
    rw [hcourse.acknowledged, hcourse.failed, List.length_map]
    have hlength := hfurther.length_le
    have hsingle := hcourse.single
    rw [List.length_map] at hlength
    exact ⟨further, ending, hfurther, by omega, hending, hread⟩

/-- A sink that takes 70 bytes and then fails, in the middle of the second frame. -/
theorem failing_sink_keeps_order_cut :
    let package : KeyPackage := ⟨List.replicate 16 1, List.replicate 16 2⟩
    let sink : Sink := ⟨[], some (70, ⟨.other "BrokenPipe", "gone"⟩), none, none⟩
    let message : Message := ⟨-7, some (.ofNat 3), [1, 2, 3]⟩
    let steps : List WriterStep := [.order (.message message) fun _ => 9, .order .empty fun _ => 8,
      .order .empty fun _ => 7, .shutdown]
    0 < 32 ∧ 16 ∣ 32 ∧ Codec.records.Inverts ∧
    ∃ encryptor decryptor written, (SymmetricAlgorithm.aes 128).encryptor package = .ok encryptor ∧
      (SymmetricAlgorithm.aes 128).decryptor package = .ok decryptor ∧
      (FrameWriter.after ⟨encryptor, 32, 64, .records, sink, true⟩ steps).sink.taken =
        [] ++ written ∧
      ∃ further ending, further <+: [.empty 32] ∧ further.length ≤ 1 ∧
        (ending = .closed ∨ ∃ expected got, ending = .error (.truncated expected got)) ∧
        ∀ n, FrameReader.readMany ⟨decryptor, 32, 64, .records, .ofPieces [written], true⟩
            (1 + (further.length + (n + 1))) =
          some ([.message message 64] ++ (further ++ ending :: List.replicate n .closed)) := by
  intro package sink message steps
  have hrun : ((SymmetricAlgorithm.aes 128).encryptor package).toOption.map (fun encryptor =>
      let deeds := FrameWriter.deeds ⟨encryptor, 32, 64, .records, sink, true⟩ steps
      (deeds.filterMap Deed.acknowledged, deeds.filterMap Deed.failed)) =
        some ([.message message 64], [.empty 32]) := by
    decide +kernel
  obtain ⟨encryptor, hkey, hrun⟩ := Option.map_eq_some_iff.mp hrun
  have hkey := eq_ok_of_toOption hkey
  obtain ⟨hacknowledged, hfailed⟩ := Prod.mk.inj hrun
  obtain ⟨decryptor, written, hdecryptor, htaken, -, -, -, hread⟩ :=
    failing_sink_keeps_order hkey (show 0 < 32 by decide) (by decide) 64 .records sink steps
  obtain ⟨further, ending, hfurther, hsingle, hending, hread⟩ := hread Codec.records_inverts 64
    [written] (Nat.le_refl 64) (by simp)
  rw [hfailed] at hfurther
  rw [hacknowledged] at hread
  exact ⟨by decide, by decide, Codec.records_inverts, encryptor, decryptor, written, hkey,
    hdecryptor, htaken, further, ending, hfurther, hsingle, hending, hread⟩

end CipherLink
