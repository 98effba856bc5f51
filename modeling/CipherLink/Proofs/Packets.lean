import CipherLink.Proofs.Frame.Outcomes
import CipherLink.Proofs.Frame.Reading

/-!
# Packets of a stream

What a reader makes of a stream is a matter of its bytes, hostile ones included: any two
ways to cut them into packets give the same outcomes. Each frame that is read has taken
exactly the bytes that its outcome counts.
-/

namespace CipherLink

theorem ReadOutcome.exists_size {outcome : ReadOutcome} (h : outcome.isData = true) :
    ∃ size, outcome.size? = some size := by
  cases outcome <;> simp [isData, size?] at *

namespace FrameReader

variable {r next last : FrameReader} {outcome : ReadOutcome} {size : Nat}

theorem Comes.moves (h : r.Comes (.outcome outcome next)) :
    (∃ taken, r.source.grains = taken ++ next.source.grains) ∧
      next.block = r.block ∧ next.limit = r.limit ∧ next.isOpen = outcome.keepsOpen := by
  cases h with
  | @fault fault rest delivers => exact ⟨⟨[.fault fault], delivers.grains⟩, rfl, rfl, rfl⟩
  | frame _ stream => exact ⟨⟨_, stream⟩, rfl, rfl, rfl⟩
  | stopped closes stream => exact ⟨⟨_, stream⟩, rfl, rfl, closes.symm⟩

theorem keeps_of_readNext (hpos : 0 < r.block) (hread : r.readNext = .outcome outcome next) :
    next.block = r.block ∧ next.limit = r.limit := by
  cases hopen : r.isOpen with
  | false =>
    simp only [readNext, hopen, Bool.not_false, if_true, Step.outcome.injEq] at hread
    exact hread.2 ▸ ⟨rfl, rfl⟩
  | true =>
    have hcomes := comes_readNext hopen hpos
    rw [hread] at hcomes
    obtain ⟨-, hblock, hlimit, -⟩ := hcomes.moves
    exact ⟨hblock, hlimit⟩

theorem keeps_of_after {n : Nat} (hpos : 0 < r.block) (hlast : r.after n = some last) :
    last.block = r.block ∧ last.limit = r.limit := by
  induction n generalizing r with
  | zero => exact Option.some.inj hlast ▸ ⟨rfl, rfl⟩
  | succ n ih =>
    rw [after] at hlast
    split at hlast
    · next hread =>
      obtain ⟨hblock, hlimit⟩ := keeps_of_readNext hpos hread
      obtain ⟨hblock', hlimit'⟩ := ih (hblock ▸ hpos) hlast
      exact ⟨hblock'.trans hblock, hlimit'.trans hlimit⟩
    · simp at hlast
    · simp at hlast

theorem exists_readMany (hpos : 0 < r.block)
    (hword : Frame.greatestLength + Frame.prefixLength + r.block < Frame.wordBound)
    (hsilent : .silence ∉ r.source.grains) (n : Nat) :
    ∃ outcomes, r.readMany n = some outcomes := by
  induction n generalizing r with
  | zero => exact ⟨[], rfl⟩
  | succ n ih =>
    cases hopen : r.isOpen with
    | false => exact ⟨_, readMany_closed hopen (n + 1)⟩
    | true =>
      have hcomes := comes_readNext hopen hpos
      rw [readMany]
      cases hread : r.readNext with
      | waiting =>
        rw [hread] at hcomes
        cases hcomes with
        | waiting silent => exact absurd silent hsilent
      | broken =>
        rw [hread] at hcomes
        cases hcomes with
        | broken large => omega
      | outcome outcome next =>
        rw [hread] at hcomes
        obtain ⟨⟨taken, hstream⟩, hblock, -, -⟩ := hcomes.moves
        rw [← hblock] at hpos hword
        obtain ⟨outcomes, hmany⟩ := ih hpos hword
          fun hmem => hsilent (hstream ▸ List.mem_append_right taken hmem)
        exact ⟨outcome :: outcomes, by simp only [hmany, Option.map_some]⟩

/-- What a frame of `size` bytes was to the reader that read it. -/
structure Accounts (r next : FrameReader) (size : Nat) : Prop where
  announced : ∃ length : Nat, r.announced? = some (length : Int) ∧
    Frame.paddedLength? length r.block = some size
  taken : ∃ frame : Bytes, frame.length = size ∧ r.source.bytes = frame ++ next.source.bytes
  multiple : r.block ∣ size
  bounded : size ≤ r.limit + Frame.prefixLength + r.block

theorem Opens.accounts {frame payload : Bytes} {length : Nat} {rest : Source}
    {decryptor : Decryptor} (h : r.Opens frame length payload decryptor)
    (hstream : r.source.grains = Source.units frame ++ rest.grains) (isOpen : Bool) :
    r.Accounts { r with source := rest, decryptor, isOpen } frame.length := by
  have hbytes : r.source.bytes = frame ++ rest.bytes := by
    rw [← Source.bytes_grains, hstream, Source.bytes_append, Source.bytes_units,
      Source.bytes_grains]
  obtain ⟨-, hle, hmultiple⟩ := Frame.paddedLength?_eq_some h.padded
  have hlimit := h.limit
  exact ⟨⟨length, h.announced hbytes, h.padded⟩, ⟨frame, rfl, hbytes⟩, hmultiple, by omega⟩

theorem accounts_of_readNext (hpos : 0 < r.block) (hread : r.readNext = .outcome outcome next)
    (hsize : outcome.size? = some size) : r.Accounts next size := by
  cases hopen : r.isOpen with
  | false =>
    simp only [readNext, hopen, Bool.not_false, if_true, Step.outcome.injEq] at hread
    simp [← hread.1, ReadOutcome.size?] at hsize
  | true =>
    have hcomes := comes_readNext hopen hpos
    rw [hread] at hcomes
    cases hcomes with
    | fault => simp [ReadOutcome.size?] at hsize
    | frame opens stream =>
      obtain rfl := size?_decodePayload hsize
      exact opens.accounts stream _
    | stopped closes => cases outcome <;> simp [ReadOutcome.size?, ReadOutcome.keepsOpen] at *

theorem exists_frames {n : Nat} {outcomes : List ReadOutcome} (hpos : 0 < r.block)
    (hmany : r.readMany n = some outcomes) (hlast : r.after n = some last)
    (hdata : ∀ outcome ∈ outcomes, outcome.isData = true) :
    ∃ frames : List Bytes, frames.map List.length = outcomes.filterMap ReadOutcome.size? ∧
      r.source.bytes = frames.flatten ++ last.source.bytes := by
  induction outcomes generalizing r n with
  | nil =>
    obtain rfl : 0 = n := length_readMany hmany
    obtain rfl := Option.some.inj hlast
    exact ⟨[], rfl, rfl⟩
  | cons outcome outcomes ih =>
    obtain ⟨n, rfl⟩ : ∃ m, n = m + 1 := ⟨outcomes.length, (length_readMany hmany).symm⟩
    obtain ⟨next, hread, hmany⟩ := exists_next hmany
    rw [after, hread] at hlast
    obtain ⟨size, hsize⟩ := ReadOutcome.exists_size (hdata outcome List.mem_cons_self)
    obtain ⟨frame, rfl, hbytes⟩ := (accounts_of_readNext hpos hread hsize).taken
    obtain ⟨frames, hframes, hothers⟩ := ih ((keeps_of_readNext hpos hread).1 ▸ hpos) hmany hlast
      (fun outcome hmem => hdata outcome (List.mem_cons_of_mem _ hmem))
    refine ⟨frame :: frames, ?_, ?_⟩
    · rw [List.map_cons, hframes, List.filterMap_cons, hsize]
    · rw [hbytes, hothers, List.flatten_cons, List.append_assoc]

end FrameReader

/-- The same bytes in any two sequences of packets give the same outcomes, and there always
is a next outcome in blocks that a buffer can hold. As long as whole frames are read, each
of its size, they make up what is missing from the stream; and each of them has taken its
size, which is the padded length that its first block announced. -/
theorem reads_ignore_packets (decryptor : Decryptor) {block : Nat} (hpos : 0 < block)
    (limit : Nat) (codec : Codec) {pieces pieces' : List Bytes}
    (hbytes : pieces.flatten = pieces'.flatten) :
    let reader (pieces : List Bytes) : FrameReader :=
      ⟨decryptor, block, limit, codec, .ofPieces pieces, true⟩
    (∀ n, (reader pieces).readMany n = (reader pieces').readMany n) ∧
    (block < 2 ^ 63 → ∀ n, ∃ outcomes, (reader pieces).readMany n = some outcomes) ∧
    (∀ n outcomes r, (reader pieces).readMany n = some outcomes →
      (reader pieces).after n = some r → (∀ outcome ∈ outcomes, outcome.isData = true) →
      ∃ frames : List Bytes, frames.map List.length = outcomes.filterMap ReadOutcome.size? ∧
        pieces.flatten = frames.flatten ++ r.source.bytes) ∧
    ∀ n r outcome next size, (reader pieces).after n = some r →
      r.readNext = .outcome outcome next → outcome.size? = some size →
      r.block = block ∧ r.limit = limit ∧ r.Accounts next size := by
  intro reader
  have hgrains : (reader pieces).grains = (reader pieces').grains := by
    simp only [reader, FrameReader.grains, Source.grains_ofPieces, hbytes]
  refine ⟨FrameReader.readMany_congr hgrains, ?_, ?_, ?_⟩
  · intro hblock
    apply FrameReader.exists_readMany hpos
    · simp only [reader, Frame.greatestLength, Frame.prefixLength, Frame.wordBound, UInt64.size]
      omega
    · simp [reader, Source.units]
  · intro n outcomes r hmany hlast hdata
    obtain ⟨frames, hframes, htaken⟩ := FrameReader.exists_frames hpos hmany hlast hdata
    refine ⟨frames, hframes, ?_⟩
    rw [← htaken, ← Source.bytes_grains, Source.grains_ofPieces, Source.bytes_units]
  · intro n r outcome next size hlast hread hsize
    obtain ⟨hblock, hlimit⟩ := FrameReader.keeps_of_after hpos hlast
    exact ⟨hblock, hlimit, FrameReader.accounts_of_readNext (hblock ▸ hpos) hread hsize⟩

/-- An empty frame and one whose payload is no record, in one packet and byte by byte. -/
theorem reads_ignore_packets_bytewise :
    let stream : Bytes := List.replicate 16 0 ++ ([0, 0, 0, 20] ++ List.replicate 28 255)
    let reader (pieces : List Bytes) : FrameReader :=
      ⟨⟨.identity, .zero⟩, 16, 64, .records, .ofPieces pieces, true⟩
    0 < 16 ∧ [stream].flatten = (stream.map ([·])).flatten ∧
    ∃ outcomes, (reader (stream.map ([·]))).readMany 3 = some outcomes ∧
      outcomes.map ReadOutcome.size? = [some 16, none, none] ∧
      ∃ next, (reader [stream]).readNext = .outcome (.empty 16) next ∧
        (reader [stream]).Accounts next 16 := by
  intro stream reader
  have hbytes : [stream].flatten = (stream.map ([·])).flatten := by decide
  obtain ⟨hsame, hmany, -, haccounts⟩ := reads_ignore_packets ⟨.identity, .zero⟩
    (show 0 < 16 by decide) 64 .records hbytes
  have hsizes : ((reader [stream]).readMany 3).map (List.map ReadOutcome.size?) =
      some [some 16, none, none] := by
    decide +kernel
  obtain ⟨outcomes, hread, hsizes⟩ := Option.map_eq_some_iff.mp hsizes
  have hfirst : (reader [stream]).readMany 1 = some [.empty 16] := by decide +kernel
  obtain ⟨next, hnext, -⟩ := FrameReader.exists_next hfirst
  exact ⟨by decide, hbytes, outcomes, (hsame 3).symm.trans hread, hsizes, next, hnext,
    (haccounts 0 _ _ next 16 rfl hnext rfl).2.2⟩

end CipherLink
