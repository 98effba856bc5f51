import CipherLink.Proofs.Frame.Outcomes
import CipherLink.Proofs.Frame.Reading

/-!
# Fronts of streams

What an open reader makes of the front of a stream is told by its bytes, and by whether the
stream has ended behind them: a frame that is there as a whole, a first block that announces a
length out of range, or an end before the frame that was begun is complete. On a stream that
goes on, the reader waits for the rest of a frame.
-/

namespace CipherLink

def Source.behind (ended : Bool) : Source :=
  if ended then [] else live

namespace FrameReader

/-- Whether a reader can read: it is open, and whole cipher blocks make its own, of a size that
leaves room in a word for any frame. -/
structure Ready (r : FrameReader) : Prop where
  isOpen : r.isOpen = true
  pos : 0 < r.block
  whole : Cipher.blockLength ∣ r.block
  word : Frame.greatestLength + Frame.prefixLength + r.block < Frame.wordBound

structure Announces (r : FrameReader) (bytes : Bytes) (length : Int) (first : Bytes)
    (middle : Decryptor) : Prop where
  long : r.block ≤ bytes.length
  decrypted : r.decryptor.apply (bytes.take r.block) = .ok (first, middle)
  announced : ∃ front rest, first.split? Frame.prefixLength = some (front, rest) ∧
    front.toInt = length

inductive Front (r : FrameReader) (bytes : Bytes) (ended : Bool) : ReadOutcome → Prop
  | message {frame payload rest : Bytes} {length : Nat} {decryptor : Decryptor}
      {message : Message} (stands : bytes = frame ++ rest)
      (opens : r.Opens frame length payload decryptor) (filled : payload ≠ [])
      (decodes : r.codec.decode payload = .ok message) :
      Front r bytes ended (.message message frame.length)
  | empty {frame rest : Bytes} {length : Nat} {decryptor : Decryptor}
      (stands : bytes = frame ++ rest) (opens : r.Opens frame length [] decryptor) :
      Front r bytes ended (.empty frame.length)
  | undecodable {frame payload rest : Bytes} {length : Nat} {decryptor : Decryptor}
      {cause : CodecError} (stands : bytes = frame ++ rest)
      (opens : r.Opens frame length payload decryptor) (filled : payload ≠ [])
      (decodes : r.codec.decode payload = .error cause) :
      Front r bytes ended (.error (.ofCodecError cause))
  | negative {length : Int} {first : Bytes} {middle : Decryptor}
      (announces : r.Announces bytes length first middle) (sign : length < 0) :
      Front r bytes ended (.error (.negativeLength length))
  | tooLarge {length : Nat} {first : Bytes} {middle : Decryptor}
      (announces : r.Announces bytes length first middle) (large : r.limit < length) :
      Front r bytes ended (.error (.frameTooLarge length r.limit))
  | closed (ends : ended = true) (nothing : bytes = []) : Front r bytes ended .closed
  | cutBlock (ends : ended = true) (something : bytes ≠ []) (short : bytes.length < r.block) :
      Front r bytes ended (.error (.truncated r.block bytes.length))
  | cutFrame {length total : Nat} {first : Bytes} {middle : Decryptor} (ends : ended = true)
      (announces : r.Announces bytes length first middle) (limit : length ≤ r.limit)
      (padded : Frame.paddedLength? length r.block = some total)
      (short : bytes.length < total) :
      Front r bytes ended (.error (.truncated total bytes.length))

section

variable {r : FrameReader} {bytes first : Bytes} {length : Int} {middle : Decryptor}
  {source tail : Source} {n total : Nat}

theorem exists_announces (hr : r.Ready) (hlong : r.block ≤ bytes.length) :
    ∃ length first middle, r.Announces bytes length first middle := by
  have hlength : (bytes.take r.block).length = r.block := List.length_take_of_le hlong
  obtain ⟨first, middle, hdecrypted⟩ := r.decryptor.exists_apply (hlength.symm ▸ hr.whole)
  have hfirst := (Decryptor.length_of_apply hdecrypted).2
  -- A block holds at least one cipher block, so there is room for the prefix.
  have hroom : Frame.prefixLength ≤ first.length := by
    rw [hfirst, hlength]
    exact Nat.le_trans (by decide) (Nat.le_of_dvd hr.pos hr.whole)
  exact ⟨_, first, middle, hlong, hdecrypted, _, _, Bytes.split?_of_le hroom, rfl⟩

theorem Announces.le_greatest (h : r.Announces bytes n first middle) :
    n ≤ Frame.greatestLength := by
  obtain ⟨front, rest, hsplit, hfront⟩ := h.announced
  have hlt := Bytes.toInt_lt (w := 3) (Bytes.split?_eq_some hsplit).2
  simp only [Frame.greatestLength]
  omega

theorem Announces.readFrame (h : r.Announces bytes length first middle) (hpos : 0 < r.block)
    (hsource : r.source.Delivers bytes tail) :
    ∃ source : Source, source.Delivers (bytes.drop r.block) tail ∧
      r.readFrame = readAnnounced { r with source, decryptor := middle } first := by
  rw [← List.take_append_drop r.block bytes] at hsource
  obtain ⟨source, hdelivers, hfill⟩ := hsource.fill (List.length_take_of_le h.long)
  refine ⟨source, hdelivers, ?_⟩
  simp only [FrameReader.readFrame, hfill, Nat.ne_of_gt hpos, if_false, h.decrypted]

theorem Announces.readRest (h : r.Announces bytes n first middle) (hr : r.Ready)
    (hlimit : n ≤ r.limit) (hsource : r.source.Delivers bytes tail) :
    ∃ source : Source, source.Delivers (bytes.drop r.block) tail ∧
      r.readFrame = FrameReader.readRest { r with source, decryptor := middle } first n := by
  obtain ⟨source, hdelivers, hread⟩ := h.readFrame hr.pos hsource
  obtain ⟨front, rest, hsplit, hfront⟩ := h.announced
  refine ⟨source, hdelivers, ?_⟩
  rw [hread, readAnnounced, hsplit]
  simp only [hfront]
  rw [if_neg (by omega), Int.toNat_natCast, if_neg (by omega)]

theorem Announces.negative (h : r.Announces bytes length first middle) (hr : r.Ready)
    (hsign : length < 0) (hsource : r.source.Delivers bytes tail) :
    ∃ next, r.readNext = .outcome (.error (.negativeLength length)) next := by
  obtain ⟨source, -, hread⟩ := h.readFrame hr.pos hsource
  obtain ⟨front, rest, hsplit, rfl⟩ := h.announced
  rw [readNext_open hr.isOpen, hread, readAnnounced, hsplit]
  simp only [if_pos hsign, Step.settle]
  exact ⟨_, rfl⟩

theorem Announces.tooLarge (h : r.Announces bytes n first middle) (hr : r.Ready)
    (hlarge : r.limit < n) (hsource : r.source.Delivers bytes tail) :
    ∃ next, r.readNext = .outcome (.error (.frameTooLarge n r.limit)) next := by
  obtain ⟨source, -, hread⟩ := h.readFrame hr.pos hsource
  obtain ⟨front, rest, hsplit, hfront⟩ := h.announced
  rw [readNext_open hr.isOpen, hread, readAnnounced, hsplit]
  simp only [hfront, Int.toNat_natCast]
  rw [if_neg (by omega), if_pos hlarge]
  exact ⟨_, rfl⟩

theorem exists_total (h : r.Announces bytes n first middle) (hr : r.Ready) :
    ∃ total, Frame.paddedLength? n r.block = some total := by
  have hgreatest := h.le_greatest
  have hword := hr.word
  exact Frame.exists_paddedLength hr.pos (by omega)

theorem Announces.opens (h : r.Announces bytes n first middle) (hr : r.Ready)
    (hlimit : n ≤ r.limit) (hpadded : Frame.paddedLength? n r.block = some total)
    (hwhole : total ≤ bytes.length) :
    ∃ payload decryptor, r.Opens (bytes.take total) n payload decryptor := by
  obtain ⟨hused, -, hmultiple⟩ := Frame.paddedLength?_eq_some hpadded
  obtain ⟨front, behind, hsplit, hfront⟩ := h.announced
  have hframe : (bytes.take total).length = total := List.length_take_of_le hwhole
  have hleast : r.block ≤ total := Nat.le_of_dvd (by omega) hmultiple
  have htake : (bytes.take total).take r.block = bytes.take r.block := by
    rw [List.take_take, Nat.min_eq_left hleast]
  have hrest : ((bytes.take total).drop r.block).length = total - r.block := by
    rw [List.length_drop, hframe]
  obtain ⟨rest, decryptor, hdecrypted⟩ := middle.exists_apply
    (hrest.symm ▸ Nat.dvd_sub (Nat.dvd_trans hr.whole hmultiple) hr.whole)
  obtain ⟨payload, hpayload⟩ : ∃ payload, payload? (first ++ rest) n = some payload := by
    apply exists_payload?
    rw [List.length_append, (Decryptor.length_of_apply h.decrypted).2,
      (Decryptor.length_of_apply hdecrypted).2, hrest, List.length_take_of_le h.long]
    omega
  refine ⟨payload, decryptor, hlimit, by rw [hframe, hpadded], ?_⟩
  exact ⟨first, rest, middle, front, behind, htake ▸ h.decrypted, hsplit, hfront, hdecrypted,
    hpayload⟩

inductive Unfinished (r : FrameReader) (bytes : Bytes) : Prop
  | block (short : bytes.length < r.block)
  | frame {length total : Nat} {first : Bytes} {middle : Decryptor}
      (announces : r.Announces bytes length first middle) (limit : length ≤ r.limit)
      (padded : Frame.paddedLength? length r.block = some total)
      (short : bytes.length < total)

theorem length_drop_lt (h : r.Announces bytes n first middle) (hshort : bytes.length < total) :
    (bytes.drop r.block).length < total - r.block := by
  have hlong := h.long
  rw [List.length_drop]
  omega

theorem Announces.cut (h : r.Announces bytes n first middle) (hr : r.Ready)
    (hlimit : n ≤ r.limit) (hpadded : Frame.paddedLength? n r.block = some total)
    (hshort : bytes.length < total) (hsource : r.source.Delivers bytes []) :
    ∃ next, r.readNext = .outcome (.error (.truncated total bytes.length)) next := by
  obtain ⟨source, hdelivers, hread⟩ := h.readRest hr hlimit hsource
  have hmore : ¬total ≤ r.block := by
    have hlong := h.long
    omega
  have hgot : r.block + (bytes.drop r.block).length = bytes.length := by
    rw [List.length_drop]
    exact Nat.add_sub_of_le h.long
  rw [readNext_open hr.isOpen, hread, FrameReader.readRest, hpadded]
  simp only [if_neg hmore, hdelivers.fill_ended (length_drop_lt h hshort), hgot]
  exact ⟨_, rfl⟩

theorem Unfinished.waits (h : r.Unfinished bytes) (hr : r.Ready)
    (hsource : r.source.Delivers bytes .live) : r.readNext = .waiting := by
  cases h with
  | block hshort =>
    rw [readNext_open hr.isOpen, readFrame, hsource.fill_silent hshort]
    rfl
  | frame h hlimit hpadded hshort =>
    obtain ⟨source, hdelivers, hread⟩ := h.readRest hr hlimit hsource
    have hmore : ¬_ ≤ r.block := Nat.not_le_of_lt (Nat.lt_of_le_of_lt h.long hshort)
    rw [readNext_open hr.isOpen, hread, FrameReader.readRest, hpadded]
    simp only [if_neg hmore, hdelivers.fill_silent (length_drop_lt h hshort)]
    rfl

variable {ended : Bool} {outcome : ReadOutcome}

theorem Front.readNext (h : r.Front bytes ended outcome) (hr : r.Ready)
    (hsource : r.source.Delivers bytes (.behind ended)) :
    ∃ next, r.readNext = .outcome outcome next := by
  cases h with
  | message stands opens filled decodes =>
    obtain ⟨source, -, hread⟩ := opens.readNext hr.isOpen (stands ▸ hsource)
    simp only [decodePayload, List.isEmpty_iff, if_neg filled, decodes] at hread
    exact ⟨_, hread⟩
  | empty stands opens =>
    obtain ⟨source, -, hread⟩ := opens.readNext hr.isOpen (stands ▸ hsource)
    exact ⟨_, hread⟩
  | undecodable stands opens filled decodes =>
    obtain ⟨source, -, hread⟩ := opens.readNext hr.isOpen (stands ▸ hsource)
    simp only [decodePayload, List.isEmpty_iff, if_neg filled, decodes] at hread
    exact ⟨_, hread⟩
  | negative announces sign => exact announces.negative hr sign hsource
  | tooLarge announces large => exact announces.tooLarge hr large hsource
  | closed ends nothing =>
    subst ends nothing
    exact ⟨_, readNext_ended hr.isOpen hr.pos hsource⟩
  | cutBlock ends something short =>
    subst ends
    obtain ⟨b, others, rfl⟩ := List.exists_cons_of_ne_nil something
    rw [readNext_open hr.isOpen, readFrame, Source.Delivers.fill_ended hsource short]
    exact ⟨_, rfl⟩
  | cutFrame ends announces limit padded short =>
    subst ends
    exact announces.cut hr limit padded short hsource

theorem exists_front (hr : r.Ready) (bytes : Bytes) (ended : Bool) :
    (∃ outcome, r.Front bytes ended outcome) ∨ ended = false ∧ r.Unfinished bytes := by
  by_cases hshort : bytes.length < r.block
  · cases ended with
    | false => exact .inr ⟨rfl, .block hshort⟩
    | true =>
      by_cases hnil : bytes = []
      · exact .inl ⟨_, .closed rfl hnil⟩
      · exact .inl ⟨_, .cutBlock rfl hnil hshort⟩
  · obtain ⟨length, first, middle, h⟩ := exists_announces hr (Nat.le_of_not_lt hshort)
    by_cases hsign : length < 0
    · exact .inl ⟨_, .negative h hsign⟩
    · obtain ⟨n, rfl⟩ := Int.eq_ofNat_of_zero_le (Int.not_lt.mp hsign)
      by_cases hlarge : r.limit < n
      · exact .inl ⟨_, .tooLarge h hlarge⟩
      · have hlimit := Nat.le_of_not_lt hlarge
        obtain ⟨total, hpadded⟩ := exists_total h hr
        by_cases hcut : bytes.length < total
        · cases ended with
          | false => exact .inr ⟨rfl, .frame h hlimit hpadded hcut⟩
          | true => exact .inl ⟨_, .cutFrame rfl h hlimit hpadded hcut⟩
        · obtain ⟨payload, decryptor, hopens⟩ := h.opens hr hlimit hpadded (Nat.le_of_not_lt hcut)
          have hstands := (List.take_append_drop total bytes).symm
          by_cases hnil : payload = []
          · exact .inl ⟨_, .empty hstands (hnil ▸ hopens)⟩
          · cases hdecode : r.codec.decode payload with
            | ok message => exact .inl ⟨_, .message hstands hopens hnil hdecode⟩
            | error cause => exact .inl ⟨_, .undecodable hstands hopens hnil hdecode⟩

theorem readNext_iff (hr : r.Ready) (hsource : r.source.Delivers bytes (.behind ended)) :
    (∃ next, r.readNext = .outcome outcome next) ↔ r.Front bytes ended outcome := by
  refine ⟨?_, fun h => h.readNext hr hsource⟩
  rintro ⟨next, hread⟩
  obtain ⟨other, hfront⟩ | ⟨rfl, hunfinished⟩ := exists_front hr bytes ended
  · obtain ⟨next', hread'⟩ := hfront.readNext hr hsource
    rw [hread] at hread'
    obtain ⟨rfl, -⟩ := Step.outcome.inj hread'
    exact hfront
  · rw [hunfinished.waits hr hsource] at hread
    cases hread

end

end FrameReader

end CipherLink
