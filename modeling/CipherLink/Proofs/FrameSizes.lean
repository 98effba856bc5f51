import CipherLink.Proofs.FrameSafety
import Mathlib.Order.Bounds.Basic

/-!
# The ends of frames

The size of a frame is the least multiple of the block size that leaves room for some padding
behind the prefix and the payload. It is computed in words of 64 bits, and the computation has
a result exactly if this multiple is a word: no step of it can leave the range unless the
result does. Since a writer and a reader compute it alike, they agree on where a frame ends.
-/

namespace CipherLink

namespace Frame

/-- A frame ends at the first multiple of the block size behind its prefix and payload. -/
def Ends (length block total : Nat) : Prop :=
  IsLeast {m | block ∣ m ∧ length + prefixLength < m} total

variable {length block total : Nat}

theorem Ends.pos (h : Ends length block total) : 0 < block := by
  refine Nat.pos_of_ne_zero fun hzero => ?_
  obtain ⟨⟨hmultiple, hused⟩, -⟩ := h
  rw [hzero, Nat.zero_dvd] at hmultiple
  omega

theorem Ends.unique {total' : Nat} (h : Ends length block total) (h' : Ends length block total') :
    total = total' := IsLeast.unique h h'

theorem ends_of_le (hused : length + prefixLength < total)
    (hle : total ≤ length + prefixLength + block) (hmultiple : block ∣ total) :
    Ends length block total := by
  refine ⟨⟨hmultiple, hused⟩, ?_⟩
  rintro m ⟨hm, hbehind⟩
  refine Nat.le_of_not_lt fun hlt => ?_
  have hgap : block ≤ total - m := Nat.le_of_dvd (by omega) (Nat.dvd_sub hmultiple hm)
  omega

theorem ends_sum (hpos : 0 < block) : Ends length block
    (length + prefixLength + (block - (length + prefixLength) % block)) := by
  have hmod := Nat.mod_lt (length + prefixLength) hpos
  have hdiv := Nat.div_add_mod (length + prefixLength) block
  refine ends_of_le (by omega) (by omega) ⟨(length + prefixLength) / block + 1, ?_⟩
  rw [Nat.mul_succ]
  omega

theorem paddedLength?_eq_some_iff :
    paddedLength? length block = some total ↔ Ends length block total ∧ total < wordBound := by
  constructor
  · intro h
    obtain ⟨hused, hle, hmultiple⟩ := paddedLength?_eq_some h
    exact ⟨ends_of_le hused hle hmultiple, paddedLength?_lt h⟩
  · rintro ⟨hends, hword⟩
    have hpos := hends.pos
    obtain rfl := hends.unique (ends_sum hpos)
    have hused : length + prefixLength < wordBound := by omega
    simp only [paddedLength?, addWords?, hused, if_true, Option.bind_eq_bind, Option.bind_some,
      Nat.ne_of_gt hpos, if_false, hword]

theorem paddedLength?_eq_none_iff : paddedLength? length block = none ↔
    block = 0 ∨ ∃ total, Ends length block total ∧ wordBound ≤ total := by
  rw [Option.eq_none_iff_forall_ne_some]
  constructor
  · intro h
    obtain hzero | hpos := Nat.eq_zero_or_pos block
    · exact .inl hzero
    · exact .inr ⟨_, ends_sum hpos, Nat.le_of_not_lt fun hword =>
        h _ (paddedLength?_eq_some_iff.mpr ⟨ends_sum hpos, hword⟩)⟩
  · rintro (rfl | ⟨large, hlarge, hword⟩) total htotal
    · exact absurd (paddedLength?_eq_some_iff.mp htotal).1.pos (Nat.lt_irrefl 0)
    · obtain ⟨hends, hlt⟩ := paddedLength?_eq_some_iff.mp htotal
      exact absurd hlt (Nat.not_lt.mpr (hlarge.unique hends ▸ hword))

theorem greatest_lt_wordBound (hblock : block ≤ UInt32.size) :
    greatestLength + prefixLength + block < wordBound := by
  simp only [greatestLength, prefixLength, wordBound, UInt64.size, UInt32.size] at *
  omega

theorem exists_paddedLength_of_le (hlength : length ≤ greatestLength) (hpos : 0 < block)
    (hblock : block ≤ UInt32.size) : ∃ total, paddedLength? length block = some total := by
  have hword := greatest_lt_wordBound hblock
  exact exists_paddedLength hpos (by omega)

def wrappingUsed (length : UInt64) : UInt64 := length + UInt64.ofNat prefixLength

def wrappingPadding (length block : UInt64) : UInt64 := block - wrappingUsed length % block

/-- A size that the words do not wrap around on the way to, and how much padding it leaves. -/
structure PadsExactly (length block : UInt64) (total : Nat) : Prop where
  used_exact : (wrappingUsed length).toNat = length.toNat + prefixLength
  padding_exact : (wrappingPadding length block).toNat = total - (length.toNat + prefixLength)
  total_exact : (wrappingUsed length + wrappingPadding length block).toNat = total
  padding_pos : 1 ≤ total - (length.toNat + prefixLength)
  padding_le : total - (length.toNat + prefixLength) ≤ block.toNat

theorem padsExactly_of_paddedLength? {length block : UInt64} {total : Nat}
    (h : paddedLength? length.toNat block.toNat = some total) :
    PadsExactly length block total := by
  obtain ⟨hends, hword⟩ := paddedLength?_eq_some_iff.mp h
  obtain ⟨hbehind, hle, -⟩ := paddedLength?_eq_some h
  have hpos := hends.pos
  obtain rfl := hends.unique (ends_sum hpos)
  have hprefix : (UInt64.ofNat prefixLength).toNat = prefixLength := rfl
  have hused : (wrappingUsed length).toNat = length.toNat + prefixLength := by
    rw [wrappingUsed, UInt64.toNat_add, hprefix]
    exact Nat.mod_eq_of_lt (Nat.lt_trans hbehind hword)
  have hmodlt := Nat.mod_lt (length.toNat + prefixLength) hpos
  have hpadding : (wrappingPadding length block).toNat =
      block.toNat - (length.toNat + prefixLength) % block.toNat := by
    have hmod : (wrappingUsed length % block).toNat =
        (length.toNat + prefixLength) % block.toNat := by
      rw [UInt64.toNat_mod, hused]
    rw [wrappingPadding, UInt64.toNat_sub_of_le, hmod]
    exact UInt64.le_iff_toNat_le.mpr (by omega)
  refine ⟨hused, by omega, ?_, by omega, by omega⟩
  rw [UInt64.toNat_add, hused, hpadding]
  exact Nat.mod_eq_of_lt hword

end Frame

/-- How a writer uses the sizes of frames: one that it has a result for is where its frame ends
on the sink. -/
structure FrameWriter.KeepsEnds (w : FrameWriter) : Prop where
  defined : 0 < w.block → w.block ≤ UInt32.size →
    ∀ payload noise, ∃ step, w.send payload noise = some step
  written : ∀ {order noise size next}, w.perform order noise = some (.ok size, next) →
    ∃ payload, order.payloadIn w.codec = .ok payload ∧
      payload.length ≤ Frame.greatestLength ∧ Frame.Ends payload.length w.block size ∧
      ∃ frame : Bytes, frame.length = size ∧ next.sink.taken = w.sink.taken ++ frame

structure FrameReader.KeepsEnds (r : FrameReader) : Prop where
  defined : 0 < r.block → r.block ≤ UInt32.size → r.readNext ≠ .broken
  read : ∀ {outcome next size}, 0 < r.block → r.readNext = .outcome outcome next →
    outcome.size? = some size → ∃ length : Nat, r.announced? = some (length : Int) ∧
      Frame.Ends length r.block size ∧
      ∃ frame : Bytes, frame.length = size ∧ r.source.bytes = frame ++ next.source.bytes

theorem FrameWriter.keepsEnds (w : FrameWriter) : w.KeepsEnds where
  defined hpos hblock payload noise := by
    obtain hlarge | hle := Nat.lt_or_ge Frame.greatestLength payload.length
    · rw [send, if_pos hlarge]
      split
      · exact ⟨_, rfl⟩
      · split <;> exact ⟨_, rfl⟩
    · have hword := Frame.greatest_lt_wordBound hblock
      exact exists_send hpos (by omega) noise
  written h := by
    obtain ⟨frame, rfl, -, ⟨payload, hpayload, -, hencloses⟩, hnext⟩ := perform_eq_ok h
    refine ⟨payload, hpayload, hencloses.greatest,
      (Frame.paddedLength?_eq_some_iff.mp hencloses.padded).1, frame, rfl, ?_⟩
    rw [hnext, afterFrame]

theorem FrameReader.keepsEnds (r : FrameReader) : r.KeepsEnds where
  defined hpos hblock := by
    obtain ⟨outcome, next, hread, -⟩ | ⟨hread, -⟩ :=
      readNext_cases (Frame.greatest_lt_wordBound hblock) <;> simp [hread]
  read hpos hread hsize := by
    obtain ⟨⟨length, hannounced, hpadded⟩, htaken, -, -⟩ := accounts_of_readNext hpos hread hsize
    exact ⟨length, hannounced, (Frame.paddedLength?_eq_some_iff.mp hpadded).1, htaken⟩

/-- In words of 64 bits, the size of a frame is the least multiple of the block size behind its
prefix and payload if that is a word, without a step that wraps around, and otherwise there is
none. It leaves from one byte to a block for the padding, and there is one for every length that
a prefix can announce in blocks of up to 32 bits. So every writer and every reader end a frame of
the same length and block size at the same byte. -/
theorem frame_ends_agree :
    (∀ length block : UInt64,
      (∀ total, Frame.paddedLength? length.toNat block.toNat = some total ↔
        Frame.Ends length.toNat block.toNat total ∧ total < Frame.wordBound) ∧
      (Frame.paddedLength? length.toNat block.toNat = none ↔ block.toNat = 0 ∨
        ∃ total, Frame.Ends length.toNat block.toNat total ∧ Frame.wordBound ≤ total) ∧
      (∀ total, Frame.paddedLength? length.toNat block.toNat = some total →
        Frame.PadsExactly length block total) ∧
      (length.toNat ≤ Frame.greatestLength → 0 < block.toNat → block.toNat ≤ UInt32.size →
        ∃ total, Frame.paddedLength? length.toNat block.toNat = some total)) ∧
    (∀ w : FrameWriter, w.KeepsEnds) ∧ (∀ r : FrameReader, r.KeepsEnds) ∧
    ∀ (w next : FrameWriter) (order : FrameOrder) (noise : Noise) (payload : Bytes)
      (r next' : FrameReader) (outcome : ReadOutcome) (size size' : Nat),
      w.perform order noise = some (.ok size, next) → order.payloadIn w.codec = .ok payload →
      r.readNext = .outcome outcome next' → outcome.size? = some size' →
      r.block = w.block → r.announced? = some (payload.length : Int) → size' = size := by
  refine ⟨fun length block => ⟨fun total => Frame.paddedLength?_eq_some_iff,
    Frame.paddedLength?_eq_none_iff, fun total => Frame.padsExactly_of_paddedLength?,
    Frame.exists_paddedLength_of_le⟩, FrameWriter.keepsEnds, FrameReader.keepsEnds, ?_⟩
  intro w next order noise payload r next' outcome size size' hperform hpayload hread hsize hblock
    hannounced
  obtain ⟨payload', hpayload', -, hends, -⟩ := w.keepsEnds.written hperform
  obtain rfl : payload = payload' := Except.ok.inj (hpayload.symm.trans hpayload')
  obtain ⟨length, hlength, hends', -⟩ := r.keepsEnds.read (hblock ▸ hends.pos) hread hsize
  obtain rfl : length = payload.length :=
    Int.ofNat.inj (Option.some.inj (hlength.symm.trans hannounced))
  exact (hblock ▸ hends').unique hends

/-- A length that fills whole blocks, the two sums that leave the words, the greatest length and
block, and a frame that is written and read. -/
theorem frame_ends_agree_aligned :
    let message : Message := ⟨-7, none, [5, 5]⟩
    let w : FrameWriter := ⟨⟨.identity, .zero⟩, 16, 64, .records, .endless, true⟩
    let r : FrameReader := ⟨⟨.identity, .zero⟩, 16, 64, .records,
      .ofPieces [[0, 0, 0, 28] ++ Recorded.encode message ++ .replicate 16 9], true⟩
    Frame.PadsExactly 12 16 32 ∧
    Frame.paddedLength? (18446744073709551612 : UInt64).toNat (16 : UInt64).toNat = none ∧
    Frame.paddedLength? (18446744073709551596 : UInt64).toNat (16 : UInt64).toNat = none ∧
    (∃ total, Frame.paddedLength? (2147483647 : UInt64).toNat (4294967296 : UInt64).toNat =
      some total) ∧
    (∃ next, w.perform (.message message) (fun _ => 9) = some (.ok 48, next)) ∧
    (∃ next, r.readNext = .outcome (.message message 48) next) ∧ Frame.Ends 28 16 48 := by
  intro message w r
  obtain ⟨hwords, -, hreaders, hagree⟩ := frame_ends_agree
  have hfirst : Frame.Ends 18446744073709551612 16 18446744073709551632 :=
    Frame.ends_of_le (by decide) (by decide) (by decide)
  have hsecond : Frame.Ends 18446744073709551596 16 18446744073709551616 :=
    Frame.ends_of_le (by decide) (by decide) (by decide)
  have hwritten : (w.perform (.message message) fun _ => 9).any (·.1.toOption.isSome) := by
    decide +kernel
  obtain ⟨⟨result, next⟩, hperform, hresult⟩ := (Option.any_eq_true _ _).mp hwritten
  obtain ⟨size, hsize⟩ := Option.isSome_iff_exists.mp hresult
  obtain rfl : result = .ok size := eq_ok_of_toOption hsize
  obtain ⟨next', hread, -⟩ := FrameReader.exists_next
    (show r.readMany 1 = some [.message message 48] by decide +kernel)
  have hannounced : r.announced? = some (28 : Nat) := by decide +kernel
  have hpayload : (Recorded.encode message).length = 28 := by decide +kernel
  obtain rfl : 48 = size := hagree w next (.message message) _ (Recorded.encode message) r next' _ _
    _ hperform rfl hread rfl rfl (hpayload ▸ hannounced)
  obtain ⟨length, hlength, hends, -⟩ := (hreaders r).read (by decide) hread rfl
  obtain rfl : length = 28 := Int.ofNat.inj (Option.some.inj (hlength.symm.trans hannounced))
  exact ⟨(hwords 12 16).2.2.1 32 (by decide),
    (hwords _ _).2.1.mpr (.inr ⟨_, hfirst, by decide⟩),
    (hwords _ _).2.1.mpr (.inr ⟨_, hsecond, by decide⟩),
    (hwords _ _).2.2.2 (by decide) (by decide) (by decide), ⟨next, hperform⟩, ⟨next', hread⟩, hends⟩

end CipherLink
