import CipherLink.Handshake
import CipherLink.Message
import CipherLink.Proofs.Cbor.Persistence
import CipherLink.Proofs.WireRecords

/-!
# Records decided by a front

A record is decoded from the front of the bytes that hold it. A front that does not end
inside an item decides what is decoded, whether it is a value or why there is none, and what
follows the front makes no difference.
-/

namespace CipherLink

theorem Recorded.decode_append {α : Type} [Recorded α] {front : Bytes}
    (h : decode (α := α) front ≠ .error .io) (more : Bytes) :
    decode (α := α) (front ++ more) = decode front := by
  have hread := (schema α).persists_read more front
  unfold decode at h ⊢
  generalize (schema α).read front = short at hread h ⊢
  generalize (schema α).read (front ++ more) = long at hread ⊢
  cases hread with
  | cut => exact absurd rfl h
  | fault f => rfl
  | value taken => rfl

theorem Handshake.decode_append {α : Type} [Recorded α] {front : Bytes}
    (h : (decode front : Dialogue α) ≠ .failed (.protocol "Io")) (more : Bytes) :
    (decode (front ++ more) : Dialogue α) = decode front := by
  have hcomplete : Recorded.decode (α := α) front ≠ .error .io := by
    intro hcut
    apply h
    rw [decode, hcut]
    rfl
  rw [decode, decode, Recorded.decode_append hcomplete]

theorem Codec.records_decode_append {front : Bytes}
    (h : records.decode front ≠ .error (.decode "Io")) (more : Bytes) :
    records.decode (front ++ more) = records.decode front := by
  have hcomplete : Recorded.decode (α := Message) front ≠ .error .io := by
    intro hcut
    apply h
    simp only [records, hcut]
    rfl
  simp only [records, Recorded.decode_append hcomplete]

/-- Whatever is decoded from some bytes, be it a message, a descriptor or a key package, a
value or an error of another class than that of an unfinished item, is decoded from these
bytes with any others behind them. -/
theorem decoding_decided_by_front (front more : Bytes) :
    (Codec.records.decode front ≠ .error (.decode "Io") →
      Codec.records.decode (front ++ more) = Codec.records.decode front) ∧
    ((Handshake.decode front : Dialogue Descriptor) ≠ .failed (.protocol "Io") →
      (Handshake.decode (front ++ more) : Dialogue Descriptor) = Handshake.decode front) ∧
    ((Handshake.decode front : Dialogue KeyPackage) ≠ .failed (.protocol "Io") →
      (Handshake.decode (front ++ more) : Dialogue KeyPackage) = Handshake.decode front) :=
  ⟨fun h => Codec.records_decode_append h more, fun h => Handshake.decode_append h more,
    fun h => Handshake.decode_append h more⟩

/-- The message of key 7 and payload "ab", in an open map, with a big number for its key and
the payload in pieces. -/
def piecedRecord : Bytes :=
  [0xbf, 0x63, 0x6b, 0x65, 0x79, 0xc2, 0x41, 0x07, 0x67, 0x70, 0x61, 0x79, 0x6c, 0x6f, 0x61, 0x64,
    0x5f, 0x41, 0x61, 0x41, 0x62, 0xff, 0xff]

/-- A message in pieces, an array in a descriptor's place, and a key package. -/
theorem decoding_decided_by_front_at :
    Codec.records.decode piecedRecord ≠ .error (.decode "Io") ∧
    Codec.records.decode (piecedRecord ++ [0xff, 0x1c]) = Codec.records.decode piecedRecord ∧
    (Handshake.decode [0x80] : Dialogue Descriptor) ≠ .failed (.protocol "Io") ∧
    (Handshake.decode ([0x80] ++ [0xff, 0x1c]) : Dialogue Descriptor) = Handshake.decode [0x80] ∧
    (Handshake.decode (Recorded.encode (⟨[9], [9]⟩ : KeyPackage)) : Dialogue KeyPackage) ≠
      .failed (.protocol "Io") ∧
    (Handshake.decode (Recorded.encode (⟨[9], [9]⟩ : KeyPackage) ++ [0xff, 0x1c]) :
      Dialogue KeyPackage) = Handshake.decode (Recorded.encode (⟨[9], [9]⟩ : KeyPackage)) := by
  have hmessage : Codec.records.decode piecedRecord ≠ .error (.decode "Io") := by
    intro h
    have hvalue : (Codec.records.decode piecedRecord).toOption = some ⟨7, none, [0x61, 0x62]⟩ := by
      decide +kernel
    simp [h, Except.toOption] at hvalue
  have hdescriptor : (Handshake.decode [0x80] : Dialogue Descriptor) ≠ .failed (.protocol "Io") := by
    have hfault : Recorded.decode (α := Descriptor) [0x80] = .error .semantic := by
      have hread : Cbor.Header.read [0x80] = .ok (.array (some 0), []) := rfl
      rw [Recorded.decode, Cbor.Schema.read_eq, Cbor.readPastTags_of_read hread (by simp)]
      rfl
    simp [Handshake.decode, hfault, Cbor.Fault.name]
  have hpackage : (Handshake.decode (Recorded.encode (⟨[9], [9]⟩ : KeyPackage)) :
      Dialogue KeyPackage) ≠ .failed (.protocol "Io") := by
    rw [Handshake.decode_record (KeyPackage.writable (by decide) (by decide))]
    simp
  exact ⟨hmessage, (decoding_decided_by_front piecedRecord [0xff, 0x1c]).1 hmessage,
    hdescriptor, (decoding_decided_by_front [0x80] [0xff, 0x1c]).2.1 hdescriptor,
    hpackage, (decoding_decided_by_front _ [0xff, 0x1c]).2.2 hpackage⟩

end CipherLink
