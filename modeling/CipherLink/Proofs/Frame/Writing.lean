import CipherLink.Frame.Steps
import CipherLink.Proofs.Chaining
import CipherLink.Proofs.Streams

/-!
# Frames written

A frame is made of a payload by padding and encrypting it, and one chain goes
through the frames of a run. An order comes to a frame for the sink, or is refused
and leaves the writer as it was; the sink takes the frame, or a front of it.
-/

namespace CipherLink

namespace Frame

theorem paddedLength?_eq_some {length block total : Nat}
    (h : paddedLength? length block = some total) :
    length + prefixLength < total ∧ total ≤ length + prefixLength + block ∧ block ∣ total := by
  simp only [paddedLength?, addWords?] at h
  split at h
  · simp only [Option.bind_eq_bind, Option.bind_some] at h
    split at h
    · simp at h
    · next hpos =>
      split at h
      · have hmod := Nat.mod_lt (length + prefixLength) (Nat.pos_of_ne_zero hpos)
        have hdiv := Nat.div_add_mod (length + prefixLength) block
        rw [Option.some.injEq] at h
        refine ⟨by omega, by omega, (length + prefixLength) / block + 1, ?_⟩
        rw [Nat.mul_succ]
        omega
      · simp at h
  · simp at h

theorem paddedLength?_lt {length block total : Nat}
    (h : paddedLength? length block = some total) : total < wordBound := by
  obtain ⟨used, -, h⟩ := Option.bind_eq_some_iff.mp h
  split at h
  · simp at h
  · rw [addWords?] at h
    split at h
    · next hword => exact Option.some.inj h ▸ hword
    · simp at h

theorem exists_paddedLength {length block : Nat} (hpos : 0 < block)
    (hword : length + prefixLength + block < wordBound) :
    ∃ total, paddedLength? length block = some total := by
  refine ⟨length + prefixLength + (block - (length + prefixLength) % block), ?_⟩
  have hused : length + prefixLength < wordBound := by omega
  have htotal : length + prefixLength + (block - (length + prefixLength) % block) < wordBound := by
    omega
  simp only [paddedLength?, addWords?, hused, if_true, Option.bind_eq_bind, Option.bind_some,
    Nat.ne_of_gt hpos, if_false, htotal]

end Frame

/-- How the frame of a payload is made: it is padded to whole blocks and then
encrypted. -/
structure Encryptor.Encloses (t : Encryptor) (block : Nat) (payload frame : Bytes)
    (t' : Encryptor) : Prop where
  greatest : payload.length ≤ Frame.greatestLength
  padded : Frame.paddedLength? payload.length block = some frame.length
  encrypted : ∃ noise, t.apply (FrameWriter.plainFrame payload frame.length noise) = .ok (frame, t')

structure Encryptor.Packs (block limit : Nat) (codec : Codec) (t : Encryptor) (p : Parcel)
    (t' : Encryptor) : Prop where
  payload : ∃ payload, p.order.payloadIn codec = .ok payload ∧ payload.length ≤ limit ∧
    t.Encloses block payload p.frame t'

inductive Encryptor.PacksAll (block limit : Nat) (codec : Codec) :
    Encryptor → List Parcel → Encryptor → Prop
  | nil (t : Encryptor) : PacksAll block limit codec t [] t
  | cons {t t' last : Encryptor} {p : Parcel} {parcels : List Parcel}
      (head : t.Packs block limit codec p t') (tail : PacksAll block limit codec t' parcels last) :
      PacksAll block limit codec t (p :: parcels) last

def Parcel.wire (parcels : List Parcel) : Bytes :=
  parcels.flatMap Parcel.frame

theorem Encryptor.PacksAll.append {block limit : Nat} {codec : Codec} {t middle last : Encryptor}
    {parcels others : List Parcel} (h : PacksAll block limit codec t parcels middle)
    (hothers : PacksAll block limit codec middle others last) :
    PacksAll block limit codec t (parcels ++ others) last := by
  induction h with
  | nil t => exact hothers
  | cons head _ ih => exact .cons head (ih hothers)

theorem Encryptor.PacksAll.snoc {block limit : Nat} {codec : Codec} {t last last' : Encryptor}
    {parcels : List Parcel} {p : Parcel} (h : PacksAll block limit codec t parcels last)
    (hlast : last.Packs block limit codec p last') :
    PacksAll block limit codec t (parcels ++ [p]) last' :=
  h.append (.cons hlast (.nil last'))

theorem Encryptor.PacksAll.mono {block limit limit' : Nat} {codec : Codec} {t last : Encryptor}
    {parcels : List Parcel} (h : PacksAll block limit codec t parcels last) (hle : limit ≤ limit') :
    PacksAll block limit' codec t parcels last := by
  induction h with
  | nil t => exact .nil t
  | cons head _ ih =>
    obtain ⟨payload, hpayload, hlimit, hencloses⟩ := head.payload
    exact .cons ⟨payload, hpayload, Nat.le_trans hlimit hle, hencloses⟩ ih

theorem Encryptor.PacksAll.packs {block limit : Nat} {codec : Codec} {t last : Encryptor}
    {parcels : List Parcel} (h : t.PacksAll block limit codec parcels last) :
    ∀ p ∈ parcels, ∃ t t', Encryptor.Packs block limit codec t p t' := by
  induction h with
  | nil => nofun
  | cons head _ ih =>
    intro p hmem
    obtain rfl | hmem := List.mem_cons.mp hmem
    · exact ⟨_, _, head⟩
    · exact ih p hmem

namespace FrameWriter

theorem length_plainFrame {payload : Bytes} {total : Nat} {noise : Noise}
    (h : payload.length + Frame.prefixLength < total) :
    (plainFrame payload total noise).length = total := by
  simp only [plainFrame, List.length_append, Bytes.length_ofNat, Noise.length_take]
  omega

theorem plainFrame?_eq_some {payload : Bytes} {total : Nat}
    (h : payload.length + Frame.prefixLength < total) (noise : Noise) :
    plainFrame? payload total noise = some (plainFrame payload total noise) :=
  if_pos (by omega)

/-- What comes of a payload before the sink hears of it: no answer, a refusal, or
a frame. -/
inductive Comes (w : FrameWriter) (payload : Except CodecError Bytes) :
    Option (Except FrameError (Bytes × Encryptor)) → Prop
  | broken : Comes w payload none
  | refused (cause : FrameError) (h : ∀ fault, cause ≠ .transport fault) :
      Comes w payload (some (.error cause))
  | packed {bytes frame : Bytes} {encryptor : Encryptor} (hpayload : payload = .ok bytes)
      (isOpen : w.isOpen = true) (limit : bytes.length ≤ w.limit)
      (encloses : w.encryptor.Encloses w.block bytes frame encryptor) :
      Comes w payload (some (.ok (frame, encryptor)))

theorem exists_packed_send (w : FrameWriter) (payload : Bytes) (noise : Noise) :
    ∃ outcome, w.Comes (.ok payload) outcome ∧ ∀ sink,
      { w with sink }.send payload noise = outcome.map { w with sink }.conclude := by
  by_cases hopen : w.isOpen = true
  · by_cases hlimit : w.limit < payload.length
    · exact ⟨_, .refused (.frameTooLarge payload.length w.limit) nofun,
        fun sink => by simp [send, hopen, hlimit, conclude]⟩
    · by_cases hgreatest : Frame.greatestLength < payload.length
      · exact ⟨_, .refused (.frameTooLarge payload.length Frame.greatestLength) nofun,
          fun sink => by simp [send, hopen, hlimit, hgreatest, conclude]⟩
      · cases htotal : Frame.paddedLength? payload.length w.block with
        | none =>
          exact ⟨none, .broken, fun sink => by simp [send, hopen, hlimit, hgreatest, htotal]⟩
        | some total =>
          have hused := (Frame.paddedLength?_eq_some htotal).1
          have hplain := plainFrame?_eq_some hused noise
          cases happly : w.encryptor.apply (plainFrame payload total noise) with
          | error cause =>
            exact ⟨_, .refused (.crypto cause) nofun, fun sink => by
              simp [send, hopen, hlimit, hgreatest, htotal, hplain, happly, conclude]⟩
          | ok packed =>
            obtain ⟨frame, encryptor⟩ := packed
            have hframe := Encryptor.length_of_apply happly
            rw [length_plainFrame hused] at hframe
            subst hframe
            exact ⟨_, .packed rfl hopen (by omega) ⟨by omega, htotal, noise, happly⟩, fun sink => by
              simp [send, hopen, hlimit, hgreatest, htotal, hplain, happly, conclude]⟩
  · exact ⟨_, .refused .closed nofun, fun sink => by simp [send, hopen, conclude]⟩

theorem exists_packed_write (w : FrameWriter) (message : Message) (noise : Noise) :
    ∃ outcome, w.Comes (w.codec.encode message) outcome ∧ ∀ sink,
      { w with sink }.write message noise = outcome.map { w with sink }.conclude := by
  have hrefused (cause : CodecError) (fault : StreamFault) :
      FrameError.ofCodecError cause ≠ .transport fault := by
    cases cause <;> nofun
  cases hsize : w.codec.size message with
  | error cause =>
    exact ⟨_, .refused _ (hrefused cause), fun sink => by simp [write, hsize, conclude]⟩
  | ok size =>
    by_cases hlimit : w.limit < size
    · exact ⟨_, .refused (.frameTooLarge size w.limit) nofun,
        fun sink => by simp [write, hsize, hlimit, conclude]⟩
    · cases htotal : Frame.paddedLength? size w.block with
      | none => exact ⟨none, .broken, fun sink => by simp [write, hsize, hlimit, htotal]⟩
      | some total =>
        cases hpayload : w.codec.encode message with
        | error cause =>
          exact ⟨_, .refused _ (hrefused cause), fun sink => by
            simp [write, hsize, hlimit, htotal, hpayload, conclude]⟩
        | ok payload =>
          obtain ⟨outcome, hcomes, hsend⟩ := w.exists_packed_send payload noise
          refine ⟨outcome, hcomes, ?_⟩
          intro sink
          rw [← hsend sink]
          simp [write, hsize, hlimit, htotal, hpayload]

theorem exists_packed (w : FrameWriter) (order : FrameOrder) (noise : Noise) :
    ∃ outcome, w.Comes (order.payloadIn w.codec) outcome ∧ ∀ sink,
      { w with sink }.perform order noise = outcome.map { w with sink }.conclude := by
  cases order with
  | message m => exact w.exists_packed_write m noise
  | empty => exact w.exists_packed_send [] noise

theorem comes_pack (w : FrameWriter) (order : FrameOrder) (noise : Noise) :
    w.Comes (order.payloadIn w.codec) (w.pack order noise) ∧
      w.perform order noise = (w.pack order noise).map w.conclude := by
  obtain ⟨outcome, hcomes, hperform⟩ := w.exists_packed order noise
  have hpack : w.pack order noise = outcome := by
    rw [pack, hperform .endless]
    cases hcomes with
    | broken => rfl
    | refused => rfl
    | packed => rfl
  rw [hpack]
  exact ⟨hcomes, hperform w.sink⟩

def afterFrame (w : FrameWriter) (bytes : Bytes) (encryptor : Encryptor) : FrameWriter :=
  { w with encryptor, sink := { w.sink with taken := w.sink.taken ++ bytes } }

theorem deliver_cases (w : FrameWriter) (frame : Bytes) (encryptor : Encryptor) :
    w.deliver frame encryptor = (.ok frame.length, w.afterFrame frame encryptor) ∨
      ∃ part fault, part <+: frame ∧ w.deliver frame encryptor =
        (.error (.transport fault), { w.afterFrame part encryptor with isOpen := false }) := by
  rw [deliver]
  obtain h | ⟨part, fault, hpart, h⟩ := w.sink.writeFlush_cases frame
  · exact .inl (by rw [h]; rfl)
  · exact .inr ⟨part, fault, hpart, by rw [h]; rfl⟩

theorem perform_eq_ok {w next : FrameWriter} {order : FrameOrder} {noise : Noise} {size : Nat}
    (h : w.perform order noise = some (.ok size, next)) :
    ∃ frame, frame.length = size ∧ w.isOpen = true ∧
      w.encryptor.Packs w.block w.limit w.codec ⟨order, frame⟩ next.encryptor ∧
      next = w.afterFrame frame next.encryptor := by
  obtain ⟨hcomes, hperform⟩ := w.comes_pack order noise
  rw [hperform] at h
  generalize w.pack order noise = outcome at h hcomes
  cases hcomes with
  | broken => simp at h
  | refused => simp [conclude] at h
  | @packed payload frame encryptor hpayload isOpen limit encloses =>
    rw [Option.map_some, Option.some.injEq, conclude] at h
    obtain hdeliver | ⟨part, fault, -, hdeliver⟩ := w.deliver_cases frame encryptor
    · rw [hdeliver, Prod.mk.injEq, Except.ok.injEq] at h
      obtain ⟨rfl, rfl⟩ := h
      exact ⟨frame, rfl, isOpen, ⟨payload, hpayload, limit, encloses⟩, rfl⟩
    · simp [hdeliver] at h

end FrameWriter

end CipherLink
