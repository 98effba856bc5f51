import CipherLink.Proofs.Digits
import CipherLink.Proofs.Frame.Writing

/-!
# Outcomes of reads

A read takes a front of its stream: one fault that stands there, a whole frame, or what
it has read when it gives up and closes the reader. What comes of it depends on the
bytes and faults of the stream alone, not on its packets.
-/

namespace CipherLink

theorem Source.silence_mem_append {bytes : Bytes} {source rest : Source}
    (h : source.grains = units bytes ++ rest.grains) (hrest : .silence ∈ rest.grains) :
    .silence ∈ source.grains := by
  rw [h]
  exact List.mem_append_right _ hrest

namespace FrameReader

theorem keepsOpen_midFrame (fault : StreamFault) :
    (ReadOutcome.error (midFrame fault)).keepsOpen = false := by
  obtain ⟨kind, message⟩ := fault
  cases kind <;> rfl

theorem sizes_decodePayload {codec : Codec} {payload : Bytes} {size n : Nat}
    (h : n ∈ (decodePayload codec payload size).sizes) : n = size := by
  rw [decodePayload] at h
  split at h
  · exact List.mem_singleton.mp h
  · split at h
    · exact List.mem_singleton.mp h
    · next cause _ => cases cause <;> simp [FrameError.ofCodecError, ReadOutcome.sizes] at h

theorem size?_decodePayload {codec : Codec} {payload : Bytes} {size n : Nat}
    (h : (decodePayload codec payload size).size? = some n) : n = size := by
  refine sizes_decodePayload (?_ : n ∈ (decodePayload codec payload size).sizes)
  generalize decodePayload codec payload size = outcome at h
  cases outcome <;> simp_all [ReadOutcome.size?, ReadOutcome.sizes]

theorem exists_payload? {frame : Bytes} {length : Nat}
    (h : length + Frame.prefixLength < frame.length) :
    ∃ payload, payload? frame length = some payload := by
  have hfront : Frame.prefixLength ≤ frame.length := by omega
  have hrest : length ≤ (frame.drop Frame.prefixLength).length := by
    rw [List.length_drop]
    omega
  refine ⟨(frame.drop Frame.prefixLength).take length, ?_⟩
  simp only [payload?, Bytes.split?_of_le hfront, Bytes.split?_of_le hrest, Option.bind_eq_bind,
    Option.bind_some]
  rfl

/-- A step of a read, with the reader closed unless its outcome keeps it open. -/
def Step.settle : Step → Step
  | .outcome result next => .outcome result { next with isOpen := result.keepsOpen }
  | .waiting => .waiting
  | .broken => .broken

theorem readNext_open {r : FrameReader} (hopen : r.isOpen = true) :
    r.readNext = r.readFrame.settle := by
  simp only [readNext, hopen, Bool.not_true, Bool.false_eq_true, if_false]
  cases r.readFrame <;> rfl

theorem isOpen_next {r next : FrameReader} {outcome : ReadOutcome}
    (hread : r.readNext = .outcome outcome next) :
    r.isOpen = false ∧ outcome = .closed ∧ next = r ∨
      r.isOpen = true ∧ next.isOpen = outcome.keepsOpen := by
  cases hopen : r.isOpen with
  | false =>
    simp only [readNext, hopen, Bool.not_false, if_true, Step.outcome.injEq] at hread
    exact .inl ⟨rfl, hread.1.symm, hread.2.symm⟩
  | true =>
    rw [readNext_open hopen] at hread
    generalize r.readFrame = step at hread
    cases step <;> simp only [Step.settle, Step.outcome.injEq, reduceCtorEq] at hread
    obtain ⟨rfl, rfl⟩ := hread
    exact .inr ⟨rfl, rfl⟩

/-- How a frame is opened: its first block, which announces the length of the payload, and
then the rest of it. -/
structure Opens (r : FrameReader) (frame : Bytes) (length : Nat) (payload : Bytes)
    (decryptor : Decryptor) : Prop where
  limit : length ≤ r.limit
  padded : Frame.paddedLength? length r.block = some frame.length
  decrypted : ∃ first rest middle front tail,
    r.decryptor.apply (frame.take r.block) = .ok (first, middle) ∧
    first.split? Frame.prefixLength = some (front, tail) ∧ front.toInt = length ∧
    middle.apply (frame.drop r.block) = .ok (rest, decryptor) ∧
    payload? (first ++ rest) length = some payload

/-- What a read of an open reader can come to, and what it has then taken from the
stream. -/
inductive Comes (r : FrameReader) : Step → Prop
  | waiting (silent : .silence ∈ r.source.grains) : Comes r .waiting
  | broken (large : Frame.wordBound ≤ Frame.greatestLength + Frame.prefixLength + r.block) :
      Comes r .broken
  | fault {fault : StreamFault} {rest : Source}
      (delivers : r.source.Delivers [] (.fault fault :: rest)) :
      Comes r (.outcome (.error (.transport fault))
        { r with source := rest, isOpen := fault.kind.isTransient })
  | frame {frame payload : Bytes} {length : Nat} {rest : Source} {decryptor : Decryptor}
      (opens : r.Opens frame length payload decryptor)
      (stream : r.source.grains = Source.units frame ++ rest.grains) :
      Comes r (.outcome (decodePayload r.codec payload frame.length)
        { r with
          source := rest
          decryptor
          isOpen := (decodePayload r.codec payload frame.length).keepsOpen })
  | stopped {outcome : ReadOutcome} {taken rest : Source} {decryptor : Decryptor}
      (closes : outcome.keepsOpen = false)
      (stream : r.source.grains = taken ++ rest.grains)
      (words : ∀ n ∈ outcome.sizes, n ≤ r.block ∨ n < Frame.wordBound) :
      Comes r (.outcome outcome { r with source := rest, decryptor, isOpen := false })

theorem comes_of_closes {r : FrameReader} {outcome : ReadOutcome} {taken rest : Source}
    {decryptor : Decryptor} (closes : outcome.keepsOpen = false)
    (stream : r.source.grains = taken ++ rest.grains)
    (words : ∀ n ∈ outcome.sizes, n ≤ r.block ∨ n < Frame.wordBound) :
    r.Comes (Step.outcome outcome { r with source := rest, decryptor }).settle := by
  have h : r.Comes (.outcome outcome { r with source := rest, decryptor, isOpen := false }) :=
    .stopped closes stream words
  rwa [Step.settle, closes]

section

variable {r : FrameReader} {first plain front tail : Bytes} {source : Source}
  {decryptor : Decryptor} {length : Nat}

theorem comes_readRest (hpos : 0 < r.block) (hfirst : first.length = r.block)
    (hstream : r.source.grains = Source.units first ++ source.grains)
    (hplain : r.decryptor.apply first = .ok (plain, decryptor))
    (hparts : plain.split? Frame.prefixLength = some (front, tail))
    (hlength : front.toInt = length) (hlimit : length ≤ r.limit)
    (hgreatest : length ≤ Frame.greatestLength) :
    r.Comes (readRest { r with source, decryptor } plain length).settle := by
  rw [readRest]
  cases hpadded : Frame.paddedLength? length r.block with
  | none =>
    -- Only a block that leaves no room in a word makes a frame without a size.
    refine .broken (Nat.le_of_not_lt fun hword => ?_)
    have htotal : ∃ total, Frame.paddedLength? length r.block = some total :=
      Frame.exists_paddedLength hpos (by omega)
    simp [hpadded] at htotal
  | some total =>
    obtain ⟨hused, -, hmultiple⟩ := Frame.paddedLength?_eq_some hpadded
    have hword := Frame.paddedLength?_lt hpadded
    have hlengthen := (Decryptor.length_of_apply hplain).2
    dsimp only
    split
    · next hle =>
      -- The total is a positive multiple of the block, so the first block is the whole frame.
      have hleast := Nat.le_of_dvd (by omega) hmultiple
      obtain rfl : total = first.length := by omega
      obtain ⟨payload, hpayload⟩ := exists_payload? (hlengthen.symm ▸ hused)
      simp only [conclude, hpayload]
      refine .frame ⟨hlimit, hpadded, plain, [], decryptor, front, tail, ?_, hparts, hlength,
        ?_, ?_⟩ hstream
      · rw [← hfirst, List.take_length, hplain]
      · rw [← hfirst, List.drop_length, Decryptor.apply_nil]
      · rw [List.append_nil, hpayload]
    · next hle =>
      have hfills := source.fills_fillFrom (total - r.block) []
      rw [Source.fill]
      generalize Source.fillFrom (total - r.block) [] source = fill at hfills
      cases hfills with
      | silent _ delivers =>
        exact .waiting (Source.silence_mem_append hstream (by simp [delivers.grains]))
      | @ended got hgot delivers =>
        rw [delivers.grains, ← List.append_assoc] at hstream
        refine comes_of_closes rfl hstream ?_
        simp only [ReadOutcome.sizes, List.nil_append, List.mem_cons, List.not_mem_nil, or_false]
        omega
      | @failed got fault rest _ delivers =>
        rw [delivers.grains, Source.grains_fault, List.append_cons, ← List.append_assoc] at hstream
        exact comes_of_closes (keepsOpen_midFrame fault) hstream (List.forall_mem_nil _)
      | @full second rest hsecond stream =>
        rw [stream, ← List.append_assoc, ← Source.units_append] at hstream
        dsimp only
        split
        · exact comes_of_closes rfl hstream (List.forall_mem_nil _)
        · next opened last happly =>
          obtain rfl : total = (first ++ second).length := by
            rw [List.length_append]
            omega
          have hopened := (Decryptor.length_of_apply happly).2
          rw [List.nil_append] at hopened
          obtain ⟨payload, hpayload⟩ :
              ∃ payload, payload? (plain ++ opened) length = some payload := by
            apply exists_payload?
            rw [List.length_append, hlengthen, hopened, ← List.length_append]
            exact hused
          simp only [conclude, hpayload]
          refine .frame ⟨hlimit, hpadded, plain, opened, decryptor, front, tail, ?_, hparts,
            hlength, ?_, hpayload⟩ hstream
          · rw [← hfirst, List.take_left, hplain]
          · rw [← hfirst, List.drop_left]
            exact happly

theorem comes_readAnnounced (hpos : 0 < r.block) (hfirst : first.length = r.block)
    (hstream : r.source.grains = Source.units first ++ source.grains)
    (hplain : r.decryptor.apply first = .ok (plain, decryptor)) :
    r.Comes (readAnnounced { r with source, decryptor } plain).settle := by
  obtain ⟨hwhole, hlength⟩ := Decryptor.length_of_apply hplain
  -- Only whole cipher blocks are decrypted, so there is room for the prefix.
  have hroom : Frame.prefixLength ≤ plain.length := by
    have hle := Nat.le_of_dvd (by omega) hwhole
    simp only [Frame.prefixLength, Cipher.blockLength, Aes.Block.length] at *
    omega
  obtain ⟨front, tail, hparts⟩ :
      ∃ front tail, plain.split? Frame.prefixLength = some (front, tail) :=
    ⟨_, _, Bytes.split?_of_le hroom⟩
  have hgreatest := Bytes.toInt_lt (w := 3) (Bytes.split?_eq_some hparts).2
  rw [readAnnounced, hparts]
  dsimp only
  split
  · exact comes_of_closes rfl hstream (List.forall_mem_nil _)
  · next hsign =>
    split
    · refine comes_of_closes rfl hstream ?_
      simp only [ReadOutcome.sizes, List.mem_singleton, Frame.wordBound, UInt64.size]
      omega
    · next hlimit =>
      have hnatural := (Int.toNat_of_nonneg (Int.not_lt.mp hsign)).symm
      refine comes_readRest hpos hfirst hstream hplain hparts hnatural (by omega) ?_
      simp only [Frame.greatestLength]
      omega

end

theorem comes_readNext {r : FrameReader} (hopen : r.isOpen = true) (hpos : 0 < r.block) :
    r.Comes r.readNext := by
  have hfills := r.source.fills_fillFrom r.block []
  rw [readNext_open hopen, readFrame, Source.fill]
  generalize Source.fillFrom r.block [] r.source = fill at hfills
  cases hfills with
  | silent _ delivers => exact .waiting (by simp [delivers.grains])
  | @ended front hshort delivers =>
    cases front with
    | nil => exact comes_of_closes rfl delivers.grains (List.forall_mem_nil _)
    | cons b front =>
      refine comes_of_closes rfl delivers.grains ?_
      simp only [ReadOutcome.sizes, List.nil_append, List.mem_cons, List.not_mem_nil, or_false]
      omega
  | @failed front fault rest _ delivers =>
    cases front with
    | nil => exact .fault delivers
    | cons b front =>
      have hstream := delivers.grains
      rw [Source.grains_fault, List.append_cons] at hstream
      exact comes_of_closes (keepsOpen_midFrame fault) hstream (List.forall_mem_nil _)
  | @full first rest hfirst stream =>
    rw [List.nil_append]
    dsimp only
    rw [if_neg (Nat.ne_of_gt hpos)]
    split
    · exact comes_of_closes rfl stream (List.forall_mem_nil _)
    · next plain decryptor hplain => exact comes_readAnnounced hpos hfirst stream hplain

section

variable {r : FrameReader} {frame payload : Bytes} {length : Nat} {decryptor : Decryptor}

theorem Opens.pos (h : r.Opens frame length payload decryptor) : 0 < frame.length :=
  Nat.lt_of_le_of_lt (Nat.zero_le _) (Frame.paddedLength?_eq_some h.padded).1

theorem Opens.announced (h : r.Opens frame length payload decryptor) {rest : Bytes}
    (hbytes : r.source.bytes = frame ++ rest) : r.announced? = some (length : Int) := by
  obtain ⟨first, opened, middle, front, tail, hfirst, hparts, hlength, -, -⟩ := h.decrypted
  have hwhole : r.block ≤ frame.length :=
    Nat.le_of_dvd h.pos (Frame.paddedLength?_eq_some h.padded).2.2
  have hsplit : Bytes.split? r.block r.source.bytes =
      some (frame.take r.block, frame.drop r.block ++ rest) := by
    have hblock := Bytes.split?_append (frame.take r.block) (frame.drop r.block ++ rest)
    rwa [← List.append_assoc, List.take_append_drop, List.length_take_of_le hwhole,
      ← hbytes] at hblock
  simp only [announced?, hsplit, hfirst, hparts, hlength, Except.toOption, Option.bind_eq_bind,
    Option.bind_some]
  rfl

theorem Opens.readNext (h : r.Opens frame length payload decryptor) (hopen : r.isOpen = true)
    {rest : Bytes} {tail : Source} (hsource : r.source.Delivers (frame ++ rest) tail) :
    ∃ source : Source, source.Delivers rest tail ∧
      r.readNext = .outcome (decodePayload r.codec payload frame.length)
        { r with
          source
          decryptor
          isOpen := (decodePayload r.codec payload frame.length).keepsOpen } := by
  obtain ⟨first, opened, middle, front, behind, hfirst, hparts, hlength, hopened, hpayload⟩ :=
    h.decrypted
  obtain ⟨hused, -, hmultiple⟩ := Frame.paddedLength?_eq_some h.padded
  have hwhole : r.block ≤ frame.length := Nat.le_of_dvd h.pos hmultiple
  have hpos : r.block ≠ 0 := fun hzero => by
    rw [hzero, Nat.zero_dvd] at hmultiple
    omega
  rw [← List.take_append_drop r.block frame, List.append_assoc] at hsource
  obtain ⟨source, hdelivers, hfill⟩ := hsource.fill (List.length_take_of_le hwhole)
  have hsign : ¬ front.toInt < 0 := by omega
  have hlimit : ¬ r.limit < front.toInt.toNat := by
    have := h.limit
    omega
  have hframe : r.readFrame = readRest { r with source, decryptor := middle } first length := by
    simp only [readFrame, hfill, hpos, if_false, hfirst, readAnnounced, hparts, hsign, hlimit]
    rw [hlength, Int.toNat_natCast]
  rw [readNext_open hopen, hframe, readRest, h.padded]
  dsimp only
  by_cases hle : frame.length ≤ r.block
  · have hnone : frame.drop r.block = [] := List.drop_eq_nil_of_le hle
    rw [hnone, Decryptor.apply_nil, Except.ok.injEq, Prod.mk.injEq] at hopened
    rw [hnone, List.nil_append] at hdelivers
    obtain ⟨rfl, rfl⟩ := hopened
    rw [List.append_nil] at hpayload
    simp only [if_pos hle, conclude, hpayload]
    exact ⟨source, hdelivers, rfl⟩
  · obtain ⟨others, hothers, hfill⟩ := hdelivers.fill (List.length_drop ..)
    simp only [if_neg hle, hfill, hopened, conclude, hpayload]
    exact ⟨others, hothers, rfl⟩

end

theorem readNext_fault {r : FrameReader} (hopen : r.isOpen = true) (hpos : 0 < r.block)
    {fault : StreamFault} {rest : Source} (h : r.source.Delivers [] (.fault fault :: rest)) :
    r.readNext = .outcome (.error (.transport fault))
      { r with source := rest, isOpen := fault.kind.isTransient } := by
  rw [readNext_open hopen, readFrame, h.fill_failed hpos]
  rfl

theorem exists_next {r : FrameReader} {n : Nat} {outcome : ReadOutcome}
    {outcomes : List ReadOutcome} (h : r.readMany (n + 1) = some (outcome :: outcomes)) :
    ∃ next, r.readNext = .outcome outcome next ∧ next.readMany n = some outcomes := by
  rw [readMany] at h
  split at h
  · next first next hread =>
    obtain ⟨others, hothers, heq⟩ := Option.map_eq_some_iff.mp h
    obtain ⟨rfl, rfl⟩ := List.cons.inj heq
    exact ⟨next, hread, hothers⟩
  · simp at h
  · simp at h

theorem length_readMany {r : FrameReader} {n : Nat} {outcomes : List ReadOutcome}
    (h : r.readMany n = some outcomes) : outcomes.length = n := by
  induction n generalizing r outcomes with
  | zero => rw [← Option.some.inj h, List.length_nil]
  | succ n ih =>
    rw [readMany] at h
    split at h
    · obtain ⟨others, hothers, rfl⟩ := Option.map_eq_some_iff.mp h
      rw [List.length_cons, ih hothers]
    · simp at h
    · simp at h

def grains (r : FrameReader) : FrameReader :=
  { r with source := r.source.grains }

def Step.grains : Step → Step
  | .outcome result next => .outcome result next.grains
  | .waiting => .waiting
  | .broken => .broken

section

variable (r : FrameReader) {source source' : Source}

theorem conclude_congr (h : source.grains = source'.grains) (decryptor : Decryptor)
    (frame : Bytes) (length total : Nat) :
    (conclude { r with source, decryptor } frame length total).grains =
      (conclude { r with source := source', decryptor } frame length total).grains := by
  simp only [conclude]
  cases payload? frame length with
  | none => rfl
  | some payload => simp only [Step.grains, grains, h]

theorem readRest_congr (h : source.grains = source'.grains) (first : Bytes) (length : Nat) :
    (readRest { r with source } first length).grains =
      (readRest { r with source := source' } first length).grains := by
  simp only [readRest]
  cases Frame.paddedLength? length r.block with
  | none => rfl
  | some total =>
    by_cases hle : total ≤ r.block
    · simp only [hle, if_true]
      exact conclude_congr r h r.decryptor first length total
    · have hfill := Source.fill_congr h (total - r.block)
      simp only [hle, if_false]
      generalize source.fill (total - r.block) = fill at hfill
      generalize source'.fill (total - r.block) = fill' at hfill
      cases fill <;> cases fill' <;> simp only [Source.Fill.grains, reduceCtorEq,
        Source.Fill.full.injEq, Source.Fill.ended.injEq, Source.Fill.failed.injEq] at hfill
      case full.full bytes rest bytes' rest' =>
        obtain ⟨rfl, hrest⟩ := hfill
        dsimp only
        cases r.decryptor.apply bytes with
        | error cause => simp only [Step.grains, grains, hrest]
        | ok opened => exact conclude_congr r hrest opened.2 (first ++ opened.1) length total
      case ended.ended bytes bytes' =>
        subst hfill
        rfl
      case failed.failed bytes fault rest bytes' fault' rest' =>
        obtain ⟨rfl, rfl, hrest⟩ := hfill
        simp only [Step.grains, grains, hrest]
      case silent.silent => rfl

theorem readAnnounced_congr (h : source.grains = source'.grains) (first : Bytes) :
    (readAnnounced { r with source } first).grains =
      (readAnnounced { r with source := source' } first).grains := by
  have hkept : grains { r with source } = grains { r with source := source' } := by
    simp only [grains, h]
  simp only [readAnnounced]
  cases first.split? Frame.prefixLength with
  | none => rfl
  | some parts =>
    dsimp only
    split
    · simp only [Step.grains, hkept]
    · split
      · simp only [Step.grains, hkept]
      · exact readRest_congr r h first _

theorem readFrame_congr (h : source.grains = source'.grains) :
    (readFrame { r with source }).grains = (readFrame { r with source := source' }).grains := by
  have hfill := Source.fill_congr h r.block
  simp only [readFrame]
  generalize source.fill r.block = fill at hfill
  generalize source'.fill r.block = fill' at hfill
  cases fill <;> cases fill' <;> simp only [Source.Fill.grains, reduceCtorEq,
    Source.Fill.full.injEq, Source.Fill.ended.injEq, Source.Fill.failed.injEq] at hfill
  case full.full bytes rest bytes' rest' =>
    obtain ⟨rfl, hrest⟩ := hfill
    by_cases hblock : r.block = 0
    · simp only [hblock, if_true, Step.grains, grains, h]
    · simp only [hblock, if_false]
      cases r.decryptor.apply bytes with
      | error cause => simp only [Step.grains, grains, hrest]
      | ok opened => exact readAnnounced_congr { r with decryptor := opened.2 } hrest opened.1
  case ended.ended bytes bytes' =>
    subst hfill
    cases bytes <;> rfl
  case failed.failed bytes fault rest bytes' fault' rest' =>
    obtain ⟨rfl, rfl, hrest⟩ := hfill
    cases bytes <;> simp only [Step.grains, grains, hrest]
  case silent.silent => rfl

end

theorem Step.grains_settle (step : Step) : step.settle.grains = step.grains.settle := by
  cases step <;> rfl

theorem readNext_congr {r r' : FrameReader} (h : r.grains = r'.grains) :
    r.readNext.grains = r'.readNext.grains := by
  obtain ⟨decryptor, block, limit, codec, source, isOpen⟩ := r
  obtain ⟨decryptor', block', limit', codec', source', isOpen'⟩ := r'
  simp only [grains, FrameReader.mk.injEq] at h
  obtain ⟨rfl, rfl, rfl, rfl, hsource, rfl⟩ := h
  cases isOpen with
  | false => simp only [readNext, Bool.not_false, if_true, Step.grains, grains, hsource]
  | true =>
    rw [readNext_open rfl, readNext_open rfl, Step.grains_settle, Step.grains_settle,
      readFrame_congr ⟨decryptor, block, limit, codec, source, true⟩ hsource]

theorem readMany_congr {r r' : FrameReader} (h : r.grains = r'.grains) (n : Nat) :
    r.readMany n = r'.readMany n := by
  induction n generalizing r r' with
  | zero => rfl
  | succ n ih =>
    have hnext := readNext_congr h
    rw [readMany, readMany]
    cases hread : r.readNext <;> cases hread' : r'.readNext <;>
      simp only [hread, hread', Step.grains, reduceCtorEq, Step.outcome.injEq] at hnext
    case outcome.outcome outcome next outcome' next' =>
      obtain ⟨rfl, hnext⟩ := hnext
      dsimp only
      rw [ih hnext]
    all_goals rfl

end FrameReader

end CipherLink
