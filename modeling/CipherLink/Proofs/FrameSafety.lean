import CipherLink.Proofs.FailingSinks
import CipherLink.Proofs.Packets

/-!
# Safety of framing

No index of a reader leaves its buffer, and no size of a reader or a writer leaves the
words in which it is computed. What keeps the reads in their buffers is the order of the
checks: an empty block ends the stream, a first block that the transform accepts consists
of whole cipher blocks and so holds the prefix, and the padded length is greater than
prefix and payload together.
-/

namespace CipherLink

namespace FrameReader

/-- A step that breaks nothing, and reports only sizes that a word can hold. -/
def Step.InRange : Step → Prop
  | .outcome result _ => ∀ n ∈ result.sizes, n < Frame.wordBound
  | .waiting => True
  | .broken => False

structure Advances (r : FrameReader) (outcome : ReadOutcome) (next : FrameReader) : Prop where
  block : next.block = r.block
  stream : ∃ taken, r.source.grains = taken ++ next.source.grains
  words : ∀ n ∈ outcome.sizes, n < Frame.wordBound

variable {r next : FrameReader} {outcome : ReadOutcome}

theorem Comes.advances (hblock : r.block < Frame.wordBound)
    (h : r.Comes (.outcome outcome next)) : r.Advances outcome next := by
  obtain ⟨hstream, hsame, -, -⟩ := h.moves
  refine ⟨hsame, hstream, ?_⟩
  intro n hmem
  cases h with
  | fault => simp [ReadOutcome.sizes] at hmem
  | frame opens => exact sizes_decodePayload hmem ▸ Frame.paddedLength?_lt opens.padded
  | stopped _ _ words =>
    obtain hle | hlt := words n hmem
    · exact Nat.lt_of_le_of_lt hle hblock
    · exact hlt

theorem readNext_empty (hopen : r.isOpen = true) (hzero : r.block = 0) :
    r.readNext = .outcome .closed { r with isOpen := false } := by
  have hfill : ∃ rest, r.source.fill 0 = .full [] rest := by
    rw [Source.fill]
    cases r.source with
    | nil => exact ⟨_, rfl⟩
    | cons packet source => cases packet <;> exact ⟨_, by rw [Source.fillFrom]; rfl⟩
  obtain ⟨rest, hfill⟩ := hfill
  have hframe : r.readFrame = .outcome .closed r := by
    rw [readFrame, hzero, hfill]
    exact if_pos rfl
  rw [readNext_open hopen, hframe]
  rfl

theorem advances_closed (isOpen : Bool) : r.Advances .closed { r with isOpen } :=
  ⟨rfl, ⟨[], rfl⟩, List.forall_mem_nil _⟩

theorem readNext_cases
    (hword : Frame.greatestLength + Frame.prefixLength + r.block < Frame.wordBound) :
    (∃ outcome next, r.readNext = .outcome outcome next ∧ r.Advances outcome next) ∨
      r.readNext = .waiting ∧ .silence ∈ r.source := by
  cases hopen : r.isOpen with
  | false =>
    refine .inl ⟨.closed, r, ?_, advances_closed r.isOpen⟩
    simp only [readNext, hopen, Bool.not_false, if_true]
  | true =>
    obtain hzero | hpos := Nat.eq_zero_or_pos r.block
    · exact .inl ⟨_, _, readNext_empty hopen hzero, advances_closed false⟩
    · have hcomes := comes_readNext hopen hpos
      generalize r.readNext = step at hcomes ⊢
      cases step with
      | outcome outcome next => exact .inl ⟨outcome, next, rfl, hcomes.advances (by omega)⟩
      | waiting =>
        cases hcomes with
        | waiting silent => exact .inr ⟨rfl, Source.silence_mem_grains.mp silent⟩
      | broken =>
        cases hcomes with
        | broken large => omega

theorem inRange_steps
    (hword : Frame.greatestLength + Frame.prefixLength + r.block < Frame.wordBound) (n : Nat) :
    (∀ step ∈ r.steps n, step.InRange) ∧ (.silence ∉ r.source → (r.steps n).length = n) := by
  -- By induction on the reads: the block stays the same, and what is left of the stream is an
  -- end of it.
  induction n generalizing r with
  | zero => exact ⟨List.forall_mem_nil _, fun _ => rfl⟩
  | succ n ih =>
    rw [steps]
    obtain ⟨outcome, next, hread, hadvances⟩ | ⟨hread, hsilent⟩ := readNext_cases hword
    · obtain ⟨hrange, hlength⟩ := ih (hadvances.block.symm ▸ hword)
      rw [hread]
      refine ⟨List.forall_mem_cons.mpr ⟨hadvances.words, hrange⟩, ?_⟩
      intro hsound
      obtain ⟨taken, hstream⟩ := hadvances.stream
      rw [List.length_cons, hlength fun hmem => hsound ?_]
      rw [← Source.silence_mem_grains] at hmem ⊢
      exact hstream ▸ List.mem_append_right taken hmem
    · rw [hread]
      exact ⟨List.forall_mem_singleton.mpr trivial, fun hsound => absurd hsilent hsound⟩

end FrameReader

namespace FrameWriter

variable {w : FrameWriter}

theorem exists_send {payload : Bytes} (hpos : 0 < w.block)
    (hword : payload.length + Frame.prefixLength + w.block < Frame.wordBound) (noise : Noise) :
    ∃ step, w.send payload noise = some step := by
  obtain ⟨total, htotal⟩ := Frame.exists_paddedLength hpos hword
  have hplain := plainFrame?_eq_some (Frame.paddedLength?_eq_some htotal).1 noise
  rw [send]
  split
  · exact ⟨_, rfl⟩
  · split
    · exact ⟨_, rfl⟩
    · split
      · exact ⟨_, rfl⟩
      · simp only [htotal, hplain, Option.bind_eq_bind, Option.bind_some]
        split <;> exact ⟨_, rfl⟩

theorem exists_perform {order : FrameOrder} (hcodec : w.codec = .records) (hpos : 0 < w.block)
    (hword : order.payload.length + Frame.prefixLength + w.block < Frame.wordBound)
    (noise : Noise) : ∃ step, w.perform order noise = some step := by
  cases order with
  | empty => exact exists_send hpos hword noise
  | message message =>
    rw [FrameOrder.payload] at hword
    obtain ⟨step, hsend⟩ := exists_send hpos hword noise
    rw [Recorded.length_encode] at hword
    obtain ⟨total, htotal⟩ := Frame.exists_paddedLength hpos hword
    simp only [perform, write, hcodec, Codec.records_encode, Codec.records_size, htotal,
      Option.bind_eq_bind, Option.bind_some, hsend]
    split <;> exact ⟨_, rfl⟩

theorem lt_of_perform {next : FrameWriter} {order : FrameOrder} {noise : Noise} {size : Nat}
    (h : w.perform order noise = some (.ok size, next)) : size < Frame.wordBound := by
  obtain ⟨frame, rfl, -, hpacks, -⟩ := perform_eq_ok h
  obtain ⟨payload, -, -, hencloses⟩ := hpacks.payload
  exact Frame.paddedLength?_lt hencloses.padded

theorem keeps_of_step (w : FrameWriter) (step : WriterStep) :
    (w.step step).block = w.block ∧ (w.step step).codec = w.codec := by
  cases step with
  | order order noise =>
    obtain ⟨-, hsame, -⟩ | ⟨frame, encryptor, -, -, -, hperform⟩ := w.perform_cases order noise
    · rw [hsame]
      exact ⟨rfl, rfl⟩
    · obtain hdeliver | ⟨part, fault, -, hdeliver⟩ := w.deliver_cases frame encryptor <;>
      · rw [step, hperform, hdeliver]
        exact ⟨rfl, rfl⟩
  | shutdown => exact ⟨rfl, rfl⟩
  | turn room flushFault shutdownFault => exact ⟨rfl, rfl⟩

theorem exists_result (hcodec : w.codec = .records) (hpos : 0 < w.block)
    {steps : List WriterStep}
    (hword : ∀ order noise, .order order noise ∈ steps →
      order.payload.length + Frame.prefixLength + w.block < Frame.wordBound) :
    ∀ deed ∈ w.deeds steps, ∃ result, deed.result = some result ∧
      ∀ size, result = .ok size → size < Frame.wordBound := by
  induction steps generalizing w with
  | nil => exact List.forall_mem_nil _
  | cons step steps ih =>
    intro deed hmem
    rw [deeds, List.mem_append, Option.mem_toList] at hmem
    obtain hmem | hmem := hmem
    · cases step with
      | order order noise =>
        obtain rfl := Option.some.inj hmem
        obtain ⟨⟨result, next⟩, hperform⟩ :=
          exists_perform hcodec hpos (hword order noise List.mem_cons_self) noise
        refine ⟨result, by rw [hperform, Option.map_some], ?_⟩
        rintro size rfl
        exact lt_of_perform hperform
      | shutdown => simp [deed?] at hmem
      | turn room flushFault shutdownFault => simp [deed?] at hmem
    · obtain ⟨hblock, hsame⟩ := w.keeps_of_step step
      refine ih (hsame.trans hcodec) (hblock.symm ▸ hpos) ?_ deed hmem
      intro order noise horder
      rw [hblock]
      exact hword order noise (List.mem_cons_of_mem _ horder)

end FrameWriter

/-- Framing breaks at no input. With blocks of up to `2 ^ 32` bytes, empty ones and those
included that no cipher takes, no read indexes out of its buffer or computes a size beyond
64 bits, whatever the stream delivers, and unless the stream falls silent each read comes
to an end. With blocks of up to `2 ^ 32` bytes that are not empty the same holds of writes
of records, as long as these are shorter than `2 ^ 63` bytes. -/
theorem framing_never_breaks :
    (∀ r : FrameReader, r.block ≤ 2 ^ 32 → ∀ n,
      (∀ step ∈ r.steps n, step.InRange) ∧ (.silence ∉ r.source → (r.steps n).length = n)) ∧
    ∀ w : FrameWriter, w.codec = .records → 0 < w.block → w.block ≤ 2 ^ 32 → ∀ steps,
      (∀ message noise, .order (.message message) noise ∈ steps →
        (Recorded.encode message).length < 2 ^ 63) →
      ∀ deed ∈ w.deeds steps, ∃ result, deed.result = some result ∧
        ∀ size, result = .ok size → size < Frame.wordBound := by
  refine ⟨?_, ?_⟩
  · intro r hblock n
    apply FrameReader.inRange_steps
    simp only [Frame.greatestLength, Frame.prefixLength, Frame.wordBound, UInt64.size]
    omega
  · intro w hcodec hpos hblock steps hshort
    refine FrameWriter.exists_result hcodec hpos ?_
    intro order noise hmem
    have hlength : order.payload.length < 2 ^ 63 := by
      cases order with
      | empty => exact Nat.two_pow_pos 63
      | message message => exact hshort message noise hmem
    simp only [Frame.prefixLength, Frame.wordBound, UInt64.size]
    omega

/-- In blocks of 24 bytes, which no cipher takes, behind a fault that passes; the frame of
a message takes two blocks, and an empty frame is refused. -/
theorem framing_never_breaks_unaligned :
    let fault : StreamFault := ⟨.timedOut, "nothing yet"⟩
    let r : FrameReader := ⟨⟨.identity, .zero⟩, 24, 64, .records,
      [.fault fault, .data (.replicate 20 0), .data (.replicate 9 0)], true⟩
    let w : FrameWriter := ⟨⟨.identity, .zero⟩, 24, 64, .records, .endless, true⟩
    let message : Message := ⟨-7, none, [1, 2, 3]⟩
    let steps : List WriterStep := [.order (.message message) fun _ => 9, .order .empty fun _ => 8]
    r.block ≤ 2 ^ 32 ∧ .silence ∉ r.source ∧
      r.readMany 3 = some [.error (.transport fault), .error (.crypto (.unalignedBuffer 24 16)),
        .closed] ∧
      (∀ step ∈ r.steps 3, step.InRange) ∧ (r.steps 3).length = 3 ∧
    w.codec = .records ∧ 0 < w.block ∧ w.block ≤ 2 ^ 32 ∧
      (Recorded.encode message).length < 2 ^ 63 ∧
      (w.deeds steps).map Deed.result =
        [some (.ok 48), some (.error (.crypto (.unalignedBuffer 24 16)))] ∧
      ∀ deed ∈ w.deeds steps, ∃ result, deed.result = some result ∧
        ∀ size, result = .ok size → size < Frame.wordBound := by
  intro fault r w message steps
  have hblock : 24 ≤ 2 ^ 32 := by decide
  have hsound : .silence ∉ r.source := by decide
  have hlength : (Recorded.encode message).length < 2 ^ 63 := by decide +kernel
  obtain ⟨hreads, hwrites⟩ := framing_never_breaks
  obtain ⟨hrange, hmany⟩ := hreads r hblock 3
  refine ⟨hblock, hsound, by decide +kernel, hrange, hmany hsound, rfl, by decide, hblock, hlength,
    by decide +kernel, hwrites w rfl (by decide) hblock steps ?_⟩
  intro other noise hmem
  simp only [steps, List.mem_cons, WriterStep.order.injEq, FrameOrder.message.injEq, reduceCtorEq,
    false_and, List.not_mem_nil, or_false] at hmem
  exact hmem.1 ▸ hlength

end CipherLink
