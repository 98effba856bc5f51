import CipherLink.Proofs.Frame.Reading

/-!
# Frames read back

A run of orders that all succeed puts their frames on the sink, and a reader at
the other end reads them one by one.
-/

namespace CipherLink

def FrameWriter.reader (w : FrameWriter) (pieces : List Bytes) : FrameReader :=
  ⟨w.encryptor.peer, w.block, w.limit, w.codec, Source.ofPieces pieces, w.isOpen⟩

def FrameOrder.outcomes (orders : List (FrameOrder × Noise)) (sizes : List Nat) :
    List ReadOutcome :=
  List.zipWith (fun (order, _) size => order.outcome size) orders sizes

theorem FrameWriter.performAll_eq_ok {orders : List (FrameOrder × Noise)} {sizes : List Nat}
    {w last : FrameWriter} (h : w.performAll orders = some (sizes.map .ok, last)) :
    ∃ parcels, w.encryptor.PacksAll w.block w.limit w.codec parcels last.encryptor ∧
      last = w.afterFrame (Parcel.wire parcels) last.encryptor ∧
      parcels.map Parcel.outcome = FrameOrder.outcomes orders sizes ∧
      parcels.length = orders.length ∧ (w.isOpen = true ∨ parcels = [] ∧ last = w) := by
  induction orders generalizing w sizes with
  | nil =>
    obtain ⟨hsizes, rfl⟩ := Prod.mk.inj (Option.some.inj h)
    exact ⟨[], .nil _, by simp [afterFrame, Parcel.wire], rfl, rfl, .inr ⟨rfl, rfl⟩⟩
  | cons head orders ih =>
    obtain ⟨order, noise⟩ := head
    obtain ⟨⟨result, next⟩, hfirst, h⟩ := Option.bind_eq_some_iff.mp h
    obtain ⟨⟨results, final⟩, hothers, h⟩ := Option.bind_eq_some_iff.mp h
    obtain ⟨hresults, rfl⟩ := Prod.mk.inj (Option.some.inj h)
    obtain ⟨size, sizes, rfl, rfl, rfl⟩ := List.map_eq_cons_iff.mp hresults.symm
    obtain ⟨frame, rfl, hopen, hpacks, hnext⟩ := perform_eq_ok hfirst
    obtain ⟨parcels, hall, hlast, houtcomes, hlength, -⟩ := ih hothers
    rw [hnext] at hall hlast
    refine ⟨⟨order, frame⟩ :: parcels, .cons hpacks hall, ?_, ?_, ?_, .inl hopen⟩
    · rw [hlast]
      simp [afterFrame, Parcel.wire]
    · simp only [List.map_cons, houtcomes, FrameOrder.outcomes, List.zipWith_cons_cons]
      rfl
    · rw [List.length_cons, List.length_cons, hlength]

/-- What a run of a writer appends to its sink, a reader reads in front of
whatever follows. -/
theorem FrameWriter.readMany_performAll {orders : List (FrameOrder × Noise)} {sizes : List Nat}
    {w last : FrameWriter} (hcodec : w.codec = .records) (hblock : Cipher.blockLength ∣ w.block)
    (h : w.performAll orders = some (sizes.map .ok, last)) :
    ∃ produced, last.sink.taken = w.sink.taken ++ produced ∧ last.block = w.block ∧
      ∀ (pieces : List Bytes) (rest : Bytes), pieces.flatten = produced ++ rest →
        ∃ others : List Bytes, others.flatten = rest ∧ ∀ n,
          (w.reader pieces).readMany (orders.length + n) =
            ((last.reader others).readMany n).map (FrameOrder.outcomes orders sizes ++ ·) := by
  obtain ⟨parcels, hall, hlast, houtcomes, hlength, hopen⟩ := performAll_eq_ok h
  refine ⟨Parcel.wire parcels, by rw [hlast]; rfl, by rw [hlast]; rfl, ?_⟩
  intro pieces rest hpieces
  rw [← hlength, ← houtcomes]
  obtain hopen | ⟨rfl, rfl⟩ := hopen
  · obtain ⟨others, ⟨rest, hrest, rfl⟩, hrun⟩ := FrameReader.readMany_parcels hall
      (by rw [hcodec]; exact Codec.records_inverts) hblock (Source.delivers_ofPieces hpieces)
    refine ⟨rest, hrest, ?_⟩
    intro n
    rw [hlast, List.append_nil] at hrun
    rw [hlast]
    simp only [reader, afterFrame, hopen]
    exact hrun n
  · refine ⟨pieces, hpieces, ?_⟩
    intro n
    simp

/-- Every successful run of a writer is read back by a reader of the same
package, one outcome for each order, and after that the reader is closed. -/
theorem frames_round_trip {a : SymmetricAlgorithm} {package : KeyPackage} {encryptor : Encryptor}
    {block limit : Nat} {sink : Sink} {orders : List (FrameOrder × Noise)} {sizes : List Nat}
    {last : FrameWriter} (hkey : a.encryptor package = .ok encryptor) (hpos : 0 < block)
    (hblock : 16 ∣ block)
    (h : FrameWriter.performAll ⟨encryptor, block, limit, .records, sink, true⟩ orders =
      some (sizes.map .ok, last)) :
    ∃ decryptor produced, a.decryptor package = .ok decryptor ∧
      last.sink.taken = sink.taken ++ produced ∧
      ∀ pieces : List Bytes, pieces.flatten = produced → ∀ n,
        FrameReader.readMany ⟨decryptor, block, limit, .records, Source.ofPieces pieces, true⟩
          (orders.length + n) =
            some (FrameOrder.outcomes orders sizes ++ List.replicate n .closed) := by
  obtain ⟨produced, htaken, hsame, hread⟩ := FrameWriter.readMany_performAll rfl hblock h
  refine ⟨encryptor.peer, produced, SymmetricAlgorithm.decryptor_of_encryptor hkey, htaken, ?_⟩
  intro pieces hpieces n
  obtain ⟨others, hothers, hrun⟩ := hread pieces [] (by rw [hpieces, List.append_nil])
  have hclosed : (last.reader others).readMany n = some (List.replicate n .closed) :=
    FrameReader.readMany_ended rfl hothers (by rw [FrameWriter.reader, hsame]; exact hpos) n
  have houtcomes := hrun n
  rw [hclosed, Option.map_some] at houtcomes
  exact houtcomes

/-- A message and an empty frame, in blocks of twice the length of the cipher's. -/
theorem frames_round_trip_aes :
    ∃ encryptor last,
      (SymmetricAlgorithm.aes 128).encryptor ⟨List.replicate 16 1, List.replicate 16 2⟩ =
        .ok encryptor ∧
      0 < 32 ∧ 16 ∣ 32 ∧
      FrameWriter.performAll ⟨encryptor, 32, 64, .records, .endless, true⟩
        [(.message ⟨-7, some (.ofNat 3), [1, 2, 3]⟩, fun _ => 9), (.empty, fun _ => 8)] =
          some ([64, 32].map .ok, last) ∧
      ∃ decryptor produced,
        (SymmetricAlgorithm.aes 128).decryptor ⟨List.replicate 16 1, List.replicate 16 2⟩ =
          .ok decryptor ∧
        last.sink.taken = Sink.endless.taken ++ produced ∧
        ∀ pieces : List Bytes, pieces.flatten = produced → ∀ n,
          FrameReader.readMany ⟨decryptor, 32, 64, .records, Source.ofPieces pieces, true⟩
            (2 + n) =
              some ([.message ⟨-7, some (.ofNat 3), [1, 2, 3]⟩ 64, .empty 32] ++
                List.replicate n .closed) := by
  have hrun : (((SymmetricAlgorithm.aes 128).encryptor
      ⟨List.replicate 16 1, List.replicate 16 2⟩).toOption.bind fun encryptor =>
        (FrameWriter.performAll ⟨encryptor, 32, 64, .records, .endless, true⟩
          [(.message ⟨-7, some (.ofNat 3), [1, 2, 3]⟩, fun _ => 9), (.empty, fun _ => 8)]).map
            Prod.fst) = some ([64, 32].map .ok) := by
    decide +kernel
  obtain ⟨encryptor, hkey, hrun⟩ := Option.bind_eq_some_iff.mp hrun
  obtain ⟨⟨results, last⟩, hrun, rfl⟩ := Option.map_eq_some_iff.mp hrun
  have hkey := eq_ok_of_toOption hkey
  exact ⟨encryptor, last, hkey, by decide, by decide, hrun,
    frames_round_trip hkey (by decide) (by decide) hrun⟩

end CipherLink
