import CipherLink.Proofs.Truncation

/-!
# Refused orders

An order that is refused leaves the writer as it was, so a run without its refused orders
is the same run. A payload that is too long for a frame is always refused, whatever size
its codec announced; and nothing but frames within the limit reaches the sink.
-/

namespace CipherLink

namespace FrameWriter

variable {w : FrameWriter}

theorem isRefused_deliver {order : FrameOrder} {noise : Noise} {frame : Bytes}
    {encryptor : Encryptor}
    (hperform : w.perform order noise = some (w.deliver frame encryptor)) :
    (w.deed? (.order order noise)).any Deed.isRefused = false := by
  obtain hdeliver | ⟨part, fault, -, hdeliver⟩ := w.deliver_cases frame encryptor <;>
  · rw [hdeliver] at hperform
    simp [deed?, hperform, Deed.isRefused]

theorem step_refused {step : WriterStep} (h : (w.deed? step).any Deed.isRefused = true) :
    w.step step = w := by
  cases step with
  | order order noise =>
    obtain ⟨-, hsame, -⟩ | ⟨frame, encryptor, -, -, -, hperform⟩ := w.perform_cases order noise
    · exact hsame
    · simp [isRefused_deliver hperform] at h
  | shutdown => simp [deed?] at h
  | turn room flushFault shutdownFault => simp [deed?] at h

theorem perform_refused {order : FrameOrder} {noise : Noise} {cause : FrameError}
    {next : FrameWriter} (h : w.perform order noise = some (.error cause, next))
    (hcause : ∀ fault, cause ≠ .transport fault) : next = w := by
  have hstep : w.step (.order order noise) = next := by rw [step, h]
  rw [← hstep]
  apply step_refused
  cases cause with
  | transport fault => exact absurd rfl (hcause fault)
  | _ => simp [deed?, h, Deed.isRefused]

theorem after_unrefused (w : FrameWriter) (steps : List WriterStep) :
    w.after (w.unrefused steps) = w.after steps ∧
      w.deeds (w.unrefused steps) = (w.deeds steps).filter (! ·.isRefused) := by
  induction steps generalizing w with
  | nil => exact ⟨rfl, rfl⟩
  | cons step steps ih =>
    obtain ⟨hafter, hdeeds⟩ := ih (w.step step)
    rw [unrefused, deeds, List.filter_append, ← hdeeds]
    -- Behind a refused step the writer is the same, so the rest of the run is as well.
    split
    · next hrefused =>
      have hdeed : (w.deed? step).toList.filter (! ·.isRefused) = [] := by
        cases hdeed : w.deed? step <;> simp_all
      rw [step_refused hrefused] at hafter ⊢
      refine ⟨hafter.trans ?_, by rw [hdeed, List.nil_append]⟩
      rw [after, after, List.foldl_cons, step_refused hrefused]
    · next hkept =>
      have hdeed : (w.deed? step).toList.filter (! ·.isRefused) = (w.deed? step).toList := by
        cases hdeed : w.deed? step <;> simp_all
      rw [hdeed, deeds]
      exact ⟨hafter, rfl⟩

theorem refused_of_long {order : FrameOrder} {payload : Bytes}
    (hpayload : order.payloadIn w.codec = .ok payload)
    (hlong : w.limit < payload.length ∨ Frame.greatestLength < payload.length) (noise : Noise) :
    w.frame? order noise = none ∧ w.step (.order order noise) = w ∧
      ∀ size next, w.perform order noise ≠ some (.ok size, next) := by
  obtain ⟨hframe, hsame, hresult⟩ | ⟨frame, encryptor, -, -, hpacks, -⟩ :=
    w.perform_cases order noise
  · refine ⟨hframe, hsame, ?_⟩
    intro size next hperform
    exact hresult size (by rw [hperform, Option.map_some])
  · obtain ⟨bytes, hbytes, hlimit, hencloses⟩ := hpacks.payload
    obtain rfl := Except.ok.inj (hpayload.symm.trans hbytes)
    have hgreatest := hencloses.greatest
    omega

end FrameWriter

/-- An order that is refused, for whatever reason but a failure of the sink, leaves the
writer as it was; so a run in which the refused orders are left out ends with the same
writer, and the other orders come to the same. Nothing reaches the sink but frames, in one
chain, of payloads within the limit that a prefix can announce; a longer payload is never
sent, whatever the codec said about its size. -/
theorem refusals_change_nothing (w : FrameWriter) :
    (∀ order noise cause next, w.perform order noise = some (.error cause, next) →
      (∀ fault, cause ≠ .transport fault) → next = w) ∧
    (∀ steps, w.after (w.unrefused steps) = w.after steps ∧
      w.deeds (w.unrefused steps) = (w.deeds steps).filter (! ·.isRefused)) ∧
    (∀ order noise payload, order.payloadIn w.codec = .ok payload →
      w.limit < payload.length ∨ 2 ^ 31 - 1 < payload.length →
      w.frame? order noise = none ∧ w.step (.order order noise) = w ∧
        ∀ size next, w.perform order noise ≠ some (.ok size, next)) ∧
    ∀ steps, ∃ last produced,
      w.encryptor.PacksAll w.block w.limit w.codec ((w.deeds steps).filterMap Deed.parcel?) last ∧
      (w.after steps).sink.taken = w.sink.taken ++ produced ∧
      produced <+: Parcel.wire ((w.deeds steps).filterMap Deed.parcel?) ∧
      ∀ p ∈ (w.deeds steps).filterMap Deed.parcel?, ∃ payload,
        p.order.payloadIn w.codec = .ok payload ∧ payload.length ≤ w.limit ∧
          payload.length ≤ 2 ^ 31 - 1 := by
  refine ⟨?_, w.after_unrefused, ?_, ?_⟩
  · intro order noise cause next hperform hcause
    exact FrameWriter.perform_refused hperform hcause
  · intro order noise payload hpayload hlong
    exact FrameWriter.refused_of_long hpayload hlong noise
  · intro steps
    obtain ⟨last, produced, hpacked, hproduced, htaken⟩ := w.exists_produced steps
    refine ⟨last, produced, hpacked, htaken, hproduced, ?_⟩
    intro p hmem
    obtain ⟨t, t', hpacks⟩ := hpacked.packs p hmem
    obtain ⟨payload, hpayload, hlimit, hencloses⟩ := hpacks.payload
    exact ⟨payload, hpayload, hlimit, hencloses.greatest⟩

/-- Refusals of every kind around one message that is sent: with blocks of 24 bytes an empty
frame is not aligned for the cipher, the codec fails or understates its size, and the writer
is closed in the end. -/
theorem refusals_change_nothing_around_one_message :
    let package : KeyPackage := ⟨List.replicate 16 1, List.replicate 16 2⟩
    let message (payload : Bytes) : FrameOrder := .message ⟨-7, none, payload⟩
    let codec : Codec :=
      { Codec.records with
        appendTo := fun buffer m =>
          if m.payload = [] then .error (.encode "refused")
          else Codec.records.appendTo buffer m
        size := fun _ => .ok 0 }
    let steps : List WriterStep := [.order .empty fun _ => 8, .order (message []) fun _ => 7,
      .order (message [1, 2, 3]) fun _ => 9, .order (message (.replicate 40 5)) fun _ => 6,
      .shutdown, .order .empty fun _ => 5]
    ∃ encryptor, (SymmetricAlgorithm.aes 128).encryptor package = .ok encryptor ∧
      let w : FrameWriter := ⟨encryptor, 24, 40, codec, .endless, true⟩
      (w.deeds steps).map Deed.result = [some (.error (.crypto (.unalignedBuffer 24 16))),
        some (.error (.encode "refused")), some (.ok 48), some (.error (.frameTooLarge 67 40)),
        some (.error .closed)] ∧
      (w.deeds (w.unrefused steps)).map Deed.result = [some (.ok 48)] ∧
      w.after (w.unrefused steps) = w.after steps ∧
      w.perform .empty (fun _ => 8) =
        some (.error (.crypto (.unalignedBuffer 24 16)), w) ∧
      (message (.replicate 40 5)).payloadIn codec =
        .ok (Recorded.encode (⟨-7, none, .replicate 40 5⟩ : Message)) ∧
      40 < (Recorded.encode (⟨-7, none, .replicate 40 5⟩ : Message)).length ∧
      w.frame? (message (.replicate 40 5)) (fun _ => 6) = none := by
  intro package message codec steps
  have hrun : ((SymmetricAlgorithm.aes 128).encryptor package).toOption.map (fun encryptor =>
      let w : FrameWriter := ⟨encryptor, 24, 40, codec, .endless, true⟩
      ((w.deeds steps).map Deed.result,
        ((w.deeds steps).filter (! ·.isRefused)).map Deed.result,
        (w.perform .empty fun _ => 8).map Prod.fst)) =
      some ([some (.error (.crypto (.unalignedBuffer 24 16))), some (.error (.encode "refused")),
        some (.ok 48), some (.error (.frameTooLarge 67 40)), some (.error .closed)],
        [some (.ok 48)], some (.error (.crypto (.unalignedBuffer 24 16)))) := by
    decide +kernel
  obtain ⟨encryptor, hkey, hrun⟩ := Option.map_eq_some_iff.mp hrun
  obtain ⟨hresults, hothers, hempty⟩ := by simpa only [Prod.mk.injEq] using hrun
  obtain ⟨hrefused, hunrefused, hlong, -⟩ :=
    refusals_change_nothing ⟨encryptor, 24, 40, codec, .endless, true⟩
  obtain ⟨hafter, hdeeds⟩ := hunrefused steps
  obtain ⟨⟨result, next⟩, hperform, hresult⟩ := Option.map_eq_some_iff.mp hempty
  obtain rfl : result = _ := hresult
  have hsame := hrefused _ _ _ _ hperform nofun
  have hlength : 40 < (Recorded.encode (⟨-7, none, .replicate 40 5⟩ : Message)).length := by
    decide +kernel
  refine ⟨encryptor, eq_ok_of_toOption hkey, hresults, ?_, hafter, ?_, rfl, hlength,
    (hlong (message (.replicate 40 5)) _ _ rfl (.inl hlength)).1⟩
  · rw [hdeeds]
    exact hothers
  · rw [hperform, hsame]

end CipherLink
