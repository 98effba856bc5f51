import CipherLink.Frame.Steps
import CipherLink.Proofs.Packets

/-!
# Faults between frames

A reader stays open behind an error only if a transient fault came between two frames, and
then it is where it was. So such faults delay a stream and change nothing else; any other
error ends it.
-/

namespace CipherLink

theorem Source.front_eq {source rest taken : Source} (h : source.grains = taken ++ rest.grains) :
    source.front rest = taken := by
  rw [front, h, List.length_append, Nat.add_sub_cancel, List.take_left]

theorem Source.delivers_units (bytes : Bytes) (tail : Source) :
    Delivers (units bytes ++ tail) (bytes ++ []) tail :=
  ⟨bytes.map ([·]), by rw [flatten_singletons, List.append_nil], by rw [units_eq_ofPieces]⟩

namespace FrameReader

variable {r next : FrameReader} {cause : FrameError} {outcome : ReadOutcome}

theorem Comes.transient (h : r.Comes (.outcome (.error cause) next))
    (htransient : cause.isTransient = true) :
    ∃ fault rest, r.source.Delivers [] (.fault fault :: rest) ∧
      fault.kind.isTransient = true := by
  generalize hstep : Step.outcome (.error cause) next = step at h
  cases h with
  | waiting => simp at hstep
  | broken => simp at hstep
  | fault delivers =>
    obtain ⟨hcause, -⟩ := Step.outcome.inj hstep
    obtain rfl := ReadOutcome.error.inj hcause
    exact ⟨_, _, delivers, htransient⟩
  | frame opens stream =>
    obtain ⟨hcause, -⟩ := Step.outcome.inj hstep
    rw [decodePayload] at hcause
    split at hcause
    · simp at hcause
    · split at hcause
      · simp at hcause
      · next refusal _ =>
        rw [ReadOutcome.error.inj hcause] at htransient
        cases refusal <;> simp [FrameError.ofCodecError, FrameError.isTransient] at htransient
  | stopped closes =>
    obtain ⟨hcause, -⟩ := Step.outcome.inj hstep
    rw [← hcause, ReadOutcome.keepsOpen, htransient] at closes
    simp at closes

theorem isOpen_of_readNext (hread : r.readNext = .outcome (.error cause) next) :
    r.isOpen = true ∧ next.isOpen = cause.isTransient := by
  obtain ⟨-, hclosed, -⟩ | hopen := isOpen_next hread
  · cases hclosed
  · exact hopen

theorem readMany_faults (hopen : r.isOpen = true) (hpos : 0 < r.block) {faults : List StreamFault}
    (htransient : ∀ fault ∈ faults, fault.kind.isTransient = true) (source : Source) (n : Nat) :
    readMany { r with source := faults.map .fault ++ source } (faults.length + n) =
      (readMany { r with source } n).map
        (faults.map (fun fault => .error (.transport fault)) ++ ·) := by
  induction faults with
  | nil => simp
  | cons fault faults ih =>
    have hfirst := htransient fault List.mem_cons_self
    have hread := readNext_fault
      (r := { r with source := .fault fault :: (faults.map .fault ++ source) }) hopen hpos
      (Source.delivers_nil _)
    rw [hfirst, ← hopen] at hread
    rw [List.map_cons, List.cons_append, List.length_cons, Nat.add_right_comm, readMany, hread]
    dsimp only
    rw [ih fun fault hmem => htransient fault (List.mem_cons_of_mem _ hmem), Option.map_map]
    rfl

theorem Comes.resumes (h : r.Comes (.outcome outcome next)) (hkeeps : outcome.keepsOpen = true)
    (hopen : r.isOpen = true) (hpos : 0 < r.block) (source : Source) :
    ∃ others : Source, others.grains = source.grains ∧
      readNext { r with source := r.source.front next.source ++ source } =
        .outcome outcome { next with source := others } := by
  cases h with
  | @fault fault rest delivers =>
    have hfront : r.source.front rest = [.fault fault] := Source.front_eq delivers.grains
    rw [hfront, List.singleton_append]
    exact ⟨source, rfl, readNext_fault (r := { r with source := .fault fault :: source }) hopen
      hpos (Source.delivers_nil _)⟩
  | @frame frame payload length rest decryptor opens stream =>
    rw [Source.front_eq stream]
    have hopens : Opens { r with source := Source.units frame ++ source } frame length payload
        decryptor := ⟨opens.limit, opens.padded, opens.decrypted⟩
    obtain ⟨others, hothers, hread⟩ := hopens.readNext hopen (Source.delivers_units frame source)
    exact ⟨others, by simpa [Source.units] using hothers.grains, hread⟩
  | stopped closes => simp [closes] at hkeeps

theorem readMany_of_grains {source source' : Source} (h : source.grains = source'.grains)
    (n : Nat) : readMany { r with source } n = readMany { r with source := source' } n :=
  readMany_congr (by simp only [grains, h]) n

/-- A stream with transient faults between its frames gives the outcomes of the stream
without them, and in between the reports of the faults. -/
theorem readMany_interrupted {gaps : List (List StreamFault)} {source : Source} {n : Nat}
    {outcomes : List ReadOutcome} (hopen : r.isOpen = true) (hpos : 0 < r.block)
    (htransient : ∀ faults ∈ gaps, ∀ fault ∈ faults, fault.kind.isTransient = true)
    (hsource : source.grains = (r.interrupted gaps).grains)
    (hmany : r.readMany n = some outcomes) :
    readMany { r with source } (ReadOutcome.reports gaps outcomes).length =
      some (ReadOutcome.reports gaps outcomes) := by
  induction gaps generalizing r source n outcomes with
  | nil =>
    rw [ReadOutcome.reports, length_readMany hmany, readMany_of_grains hsource]
    exact hmany
  | cons faults gaps ih =>
    cases outcomes with
    | nil => rfl
    | cons outcome outcomes =>
      obtain ⟨n, rfl⟩ : ∃ m, n = m + 1 := ⟨outcomes.length, (length_readMany hmany).symm⟩
      obtain ⟨next, hread, hothers⟩ := exists_next hmany
      have hgap := readMany_faults hopen hpos (htransient faults List.mem_cons_self)
      rw [interrupted, hread] at hsource
      rw [ReadOutcome.reports, List.length_append, List.length_map, List.length_cons]
      by_cases hkeeps : outcome.keepsOpen = true
      · -- Behind the gap the read is made again, now with the later gaps behind what it takes.
        simp only [hkeeps, if_true] at hsource ⊢
        have hcomes := comes_readNext hopen hpos
        rw [hread] at hcomes
        obtain ⟨-, hblock, -, hnext⟩ := hcomes.moves
        obtain ⟨others, hgrains, hagain⟩ :=
          hcomes.resumes hkeeps hopen hpos (next.interrupted gaps)
        have hlater := ih (hnext.trans hkeeps) (hblock ▸ hpos)
          (fun faults hmem => htransient faults (List.mem_cons_of_mem _ hmem)) hgrains hothers
        rw [readMany_of_grains hsource, hgap, readMany, hagain]
        simp only [hlater, Option.map_some]
      · -- The read closes the reader, so the later gaps are not reached.
        simp only [hkeeps] at hsource ⊢
        rw [readMany_of_grains hsource]
        simp only [Bool.false_eq_true, if_false]
        rw [hgap, length_readMany hothers, hmany, Option.map_some]

end FrameReader

/-- A reader is open behind an error if and only if the error is transient, and it is
transient if and only if the stream reported a transient fault where a frame begins; the
reader is then where it was, with only the fault taken from its stream. So any number of
such faults put between the frames of a stream, in whatever packets it comes, leave all
other outcomes as they were, while any other error is the last thing that is read. -/
theorem transient_faults_only_delay {r : FrameReader} (hpos : 0 < r.block) :
    (∀ cause next, r.readNext = .outcome (.error cause) next →
      next.isOpen = cause.isTransient ∧
      (cause.isTransient = true ↔ ∃ fault rest, r.source.Delivers [] (.fault fault :: rest) ∧
        fault.kind.isTransient = true) ∧
      (cause.isTransient = false → ∀ n, next.readMany n = some (List.replicate n .closed))) ∧
    (∀ fault rest, r.isOpen = true → r.source.Delivers [] (.fault fault :: rest) →
      fault.kind.isTransient = true →
      r.readNext = .outcome (.error (.transport fault)) { r with source := rest }) ∧
    (r.isOpen = true → ∀ gaps source,
      (∀ faults ∈ gaps, ∀ fault ∈ faults, fault.kind.isTransient = true) →
      source.grains = (r.interrupted gaps).grains →
      ∀ n outcomes, r.readMany n = some outcomes →
        FrameReader.readMany { r with source } (ReadOutcome.reports gaps outcomes).length =
          some (ReadOutcome.reports gaps outcomes)) ∧
    (.silence ∉ r.source → r.block < 2 ^ 63 → ∀ n, ∃ outcomes, r.readMany n = some outcomes) := by
  have hretry (fault : StreamFault) (rest : Source) (hopen : r.isOpen = true)
      (hsource : r.source.Delivers [] (.fault fault :: rest))
      (htransient : fault.kind.isTransient = true) :
      r.readNext = .outcome (.error (.transport fault)) { r with source := rest } := by
    have hread := FrameReader.readNext_fault hopen hpos hsource
    rwa [htransient, ← hopen] at hread
  refine ⟨?_, hretry, ?_, ?_⟩
  · intro cause next hread
    obtain ⟨hopen, hnext⟩ := FrameReader.isOpen_of_readNext hread
    refine ⟨hnext, ⟨?_, ?_⟩, ?_⟩
    · exact (hread ▸ FrameReader.comes_readNext hopen hpos).transient
    · rintro ⟨fault, rest, hsource, htransient⟩
      rw [hretry fault rest hopen hsource htransient, FrameReader.Step.outcome.injEq] at hread
      obtain rfl := ReadOutcome.error.inj hread.1
      exact htransient
    · intro hfinal
      exact FrameReader.readMany_closed (hnext.trans hfinal)
  · intro hopen gaps source htransient hsource n outcomes hmany
    exact FrameReader.readMany_interrupted hopen hpos htransient hsource hmany
  · intro hsilent hblock
    refine FrameReader.exists_readMany hpos ?_ (mt Source.silence_mem_grains.mp hsilent)
    simp only [Frame.greatestLength, Frame.prefixLength, Frame.wordBound, UInt64.size]
    omega

/-- An empty frame and a frame that is cut off, with two faults in front of the first read and
one in front of the second, and in other packets. -/
theorem transient_faults_only_delay_thrice :
    let late : StreamFault := ⟨.timedOut, "late"⟩
    let busy : StreamFault := ⟨.wouldBlock, "busy"⟩
    let struck : StreamFault := ⟨.interrupted, "struck"⟩
    let reader (source : Source) : FrameReader :=
      ⟨⟨.identity, .zero⟩, 16, 64, .records, source, true⟩
    let calm : Source := [.data (List.replicate 21 0)]
    let rough : Source := [.fault late, .fault struck, .data (List.replicate 10 0),
      .data (List.replicate 6 0), .fault busy, .data (List.replicate 5 0)]
    0 < (reader calm).block ∧
    (∀ faults ∈ [[late, struck], [busy]], ∀ fault ∈ faults, fault.kind.isTransient = true) ∧
    rough.grains = ((reader calm).interrupted [[late, struck], [busy]]).grains ∧
    (reader calm).readMany 3 = some [.empty 16, .error (.truncated 16 5), .closed] ∧
    (reader rough).readMany 6 = some [.error (.transport late), .error (.transport struck),
      .empty 16, .error (.transport busy), .error (.truncated 16 5), .closed] := by
  intro late busy struck reader calm rough
  have hpos : 0 < (reader calm).block := by decide
  have htransient : ∀ faults ∈ [[late, struck], [busy]], ∀ fault ∈ faults,
      fault.kind.isTransient = true := by
    decide
  have hsource : rough.grains = ((reader calm).interrupted [[late, struck], [busy]]).grains := by
    decide +kernel
  have hcalm : (reader calm).readMany 3 =
      some [.empty 16, .error (.truncated 16 5), .closed] := by
    decide +kernel
  obtain ⟨-, -, hdelay, -⟩ := transient_faults_only_delay hpos
  exact ⟨hpos, htransient, hsource, hcalm,
    hdelay rfl [[late, struck], [busy]] rough htransient hsource 3 _ hcalm⟩

end CipherLink
