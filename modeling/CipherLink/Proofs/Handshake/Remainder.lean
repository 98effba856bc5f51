import CipherLink.Proofs.Frame.Parcels
import CipherLink.Proofs.Handshake.Soundness
import CipherLink.Session

/-!
# What a handshake leaves unread

A dialogue takes no more out of its source than the bytes that it is answered with.
So what the other side sends right behind its part of the handshake is still there
for the frames of the link, however the bytes were cut on their way.
-/

namespace CipherLink

/-- A run that succeeds has read a front of its source. It goes the same way with any
source that delivers this front, and leaves what that source delivers behind it. -/
theorem Dialogue.run_delivers {α : Type} {patience : Duration} {d : Dialogue α} {phase : Phase}
    {files : KeyFiles} {source : Source} {sink : Sink} {a : α}
    (h : (d.run patience phase files source sink).result = .ok a) :
    ∃ front : Bytes,
      source.bytes = front ++ (d.run patience phase files source sink).source.bytes ∧
        ∀ {other tail : Source} {more : Bytes}, other.Delivers (front ++ more) tail →
          ∃ rest : Source, rest.Delivers more tail ∧
            d.run patience phase files other sink =
              { d.run patience phase files source sink with source := rest } := by
  induction d generalizing phase files source sink with
  | done result => exact ⟨[], rfl, fun hother => ⟨_, hother, rfl⟩⟩
  | failed cause => simp [run] at h
  | send bytes next ih =>
    simp only [run] at h ⊢
    split at h
    · exact ih h
    · simp at h
  | flush next ih =>
    simp only [run] at h ⊢
    split at h
    · exact ih h
    · simp at h
  | receive awaited n next ih =>
    simp only [run] at h ⊢
    split at h
    · next bytes behind hfill =>
      obtain ⟨taken, hbytes, hlength, hsource⟩ := Source.bytes_of_fillFrom hfill
      rw [List.nil_append] at hbytes
      subst hbytes
      obtain ⟨front, hbehind, hdelivers⟩ := ih _ h
      refine ⟨bytes ++ front, by rw [hsource, hbehind, List.append_assoc], ?_⟩
      intro other tail more hother
      rw [List.append_assoc] at hother
      obtain ⟨others, hothers, hfill'⟩ := hother.fill hlength
      obtain ⟨rest, hrest, hrun⟩ := hdelivers hothers
      refine ⟨rest, hrest, ?_⟩
      rw [hfill']
      exact hrun
    · simp at h
    · simp at h
    · simp at h
  | enter phase next ih => exact ih h
  | keep files next ih => exact ih h

namespace Handshake

theorem block_of_negotiate {p : Party} {source : Source} {sink : Sink} {link : Link}
    (h : (negotiate p source sink).result = .ok link) : link.block = 16 := by
  obtain ⟨sent, hconverse, -⟩ := Dialogue.run_ok h
  obtain ⟨c, hends, -⟩ := converse_dialogue hconverse
  have hblock : Frame.blockBytes? 128 = some link.block := hends.block
  exact (Option.some.inj hblock).symm

/-- A handshake that has read all there was takes the same course in front of any
suffix, and leaves just the suffix. If that begins with a frame of the other side, the
reader of the link reads the frame. -/
theorem negotiate_leaves_suffix {p : Party} {source : Source} {sink : Sink} {link : Link}
    (hlink : (negotiate p source sink).result = .ok link)
    (hall : (negotiate p source sink).source.bytes = []) :
    (∀ (suffix : Bytes) (other tail : Source), other.Delivers (source.bytes ++ suffix) tail →
      ∃ rest : Source, rest.Delivers suffix tail ∧
        negotiate p other sink = { negotiate p source sink with source := rest }) ∧
    ∀ (w : FrameWriter) (message : Message) (noise : Noise) (frame : Bytes) (t : Encryptor),
      w.encryptor.peer = link.decryptor → w.block = link.block → w.codec = .records →
      w.pack (.message message) noise = some (.ok (frame, t)) →
      (Recorded.encode message).length ≤ p.config.maxFrame →
      ∀ (more : Bytes) (other tail : Source),
        other.Delivers (source.bytes ++ (frame ++ more)) tail →
          (negotiate p other sink).result = .ok link ∧
          ∃ rest : Source, rest.Delivers more tail ∧
            (Channel.ofLink link p.config.maxFrame
              (negotiate p other sink).source).reader.readNext =
                .outcome (.message message frame.length)
                  (.ofPeer t link.block p.config.maxFrame .records rest) := by
  obtain ⟨front, hfront, hdelivers⟩ := Dialogue.run_delivers hlink
  change source.bytes = front ++ (negotiate p source sink).source.bytes at hfront
  rw [hall, List.append_nil] at hfront
  subst hfront
  refine ⟨fun suffix other tail hother => hdelivers hother, ?_⟩
  intro w message noise frame t hpeer hblock hcodec hpack hlimit more other tail hother
  obtain ⟨rest, hrest, hrun⟩ := hdelivers hother
  change negotiate p other sink = { negotiate p source sink with source := rest } at hrun
  rw [hrun]
  refine ⟨hlink, ?_⟩
  have hcomes := (w.comes_pack (.message message) noise).1
  rw [hpack, hcodec] at hcomes
  cases hcomes with
  | @packed payload _ _ hpayload _ _ hencloses =>
    obtain rfl := Codec.eq_of_records_encode hpayload
    have hpacks : w.encryptor.Packs w.block p.config.maxFrame .records
        ⟨.message message, frame⟩ t :=
      ⟨_, Codec.records_encode message, hlimit, hencloses⟩
    have hwhole : Cipher.blockLength ∣ w.block := by
      rw [hblock, block_of_negotiate hlink]
      exact Nat.dvd_refl 16
    obtain ⟨others, hothers, hread⟩ :=
      FrameReader.readNext_parcel hpacks Codec.records_inverts hwhole hrest
    refine ⟨others, hothers, ?_⟩
    simp only [FrameReader.ofPeer, hpeer, hblock] at hread
    exact hread

/-- The first frame of a server behind the words of its handshake, in one packet with
the end of them. -/
theorem negotiate_leaves_suffix_at :
    ∃ link, (negotiate listener [.data utterance] .endless).result = .ok link ∧
      (∃ rest : Source, rest.Delivers [1, 2, 3] .live ∧
        negotiate listener [.data (utterance ++ [1]), .data [2, 3], .silence] .endless =
          { negotiate listener [.data utterance] .endless with source := rest }) ∧
      ∃ frame t rest, (Channel.ofLink link listener.config.maxFrame
        (negotiate listener [.data (utterance ++ frame), .silence] .endless).source).reader.readNext =
          .outcome (.message ⟨5, some (.ofNat 9), [1, 2, 3]⟩ frame.length)
            (.ofPeer t 16 listener.config.maxFrame .records rest) := by
  have hlink : (negotiate listener [.data utterance] .endless).result.toOption.isSome = true ∧
      (negotiate listener [.data utterance] .endless).source.bytes = [] := by
    decide +kernel
  obtain ⟨link, hresult⟩ := Option.isSome_iff_exists.mp hlink.1
  have hresult := eq_ok_of_toOption hresult
  obtain ⟨hsuffix, hframe⟩ := negotiate_leaves_suffix hresult hlink.2
  have hwords : Source.bytes [.data utterance] = utterance := List.append_nil _
  rw [hwords] at hsuffix hframe
  let w : FrameWriter := ⟨⟨link.decryptor.cipher, link.decryptor.chain⟩, 16, 1024, .records,
    .endless, true⟩
  have hregular : w.Regular :=
    ⟨rfl, Nat.succ_pos 15, Nat.dvd_refl 16, show 16 < UInt32.size by decide⟩
  have hshort : (Recorded.encode (⟨5, some (.ofNat 9), [1, 2, 3]⟩ : Message)).length ≤ 1024 := by
    decide
  obtain ⟨frame, t, hpack⟩ :=
    FrameWriter.exists_pack hregular rfl ⟨hshort, Nat.le_trans hshort (by decide)⟩ fun _ => 4
  have hblock := block_of_negotiate hresult
  refine ⟨link, hresult, hsuffix _ _ _ ⟨[utterance ++ [1], [2, 3]], by simp, rfl⟩, frame, t, ?_⟩
  obtain ⟨-, rest, -, hread⟩ :=
    hframe w _ _ frame t rfl hblock.symm rfl hpack (by decide) [] _ .live
      ⟨[utterance ++ frame], by simp, rfl⟩
  rw [hblock] at hread
  exact ⟨rest, hread⟩

end Handshake

end CipherLink
