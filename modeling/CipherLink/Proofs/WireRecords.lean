import CipherLink.Handshake
import CipherLink.Message
import CipherLink.Proofs.Cbor.Records

/-!
# The records on the wire

Messages, algorithm descriptors and key packages come back from their records,
behind whatever a sink held before and in front of whatever follows. A string is
counted in 64 bits, so its length is below `UInt64.size`.
-/

namespace CipherLink

open Cbor (FitsArgument)

theorem ClientId.ofBytes_toBytes (id : ClientId) : ofBytes id.toBytes = id := by
  have hlt : id.toNat < 256 ^ 16 := id.value.isLt
  rw [ofBytes, toBytes, Bytes.toNat_ofNat hlt, ofNat, toNat, BitVec.ofNat_toNat, BitVec.setWidth_eq]

instance : LawfulRecorded Message where
  wellFormed := ⟨by decide, by decide, by decide⟩
  ofValues?_values message := by
    obtain ⟨key, _ | id, payload⟩ := message <;>
      simp [Recorded.values, Recorded.ofValues?, ClientId.ofBytes_toBytes]

instance : LawfulRecorded Descriptor where
  wellFormed := ⟨by decide, by decide, by decide⟩
  ofValues?_values d := by
    obtain ⟨identifier, keySize, strength, _ | size⟩ := d <;>
      simp [Recorded.values, Recorded.ofValues?]

instance : LawfulRecorded KeyPackage where
  wellFormed := ⟨by decide, by decide, by decide⟩
  ofValues?_values _ := rfl

theorem fitsArgument_word32 (n : UInt32) : FitsArgument n.toNat :=
  Nat.lt_trans n.toNat_lt (by decide)

theorem fitsArgument_int32 (n : Int32) : FitsArgument n.toInt := by
  have hlow := n.le_toInt
  have hhigh := n.toInt_lt
  cases hn : n.toInt with
  | ofNat m =>
    change m < 18446744073709551616
    rw [hn, Int.ofNat_eq_natCast] at hhigh
    omega
  | negSucc m =>
    change m < 18446744073709551616
    omega

theorem Message.writable {message : Message} (h : message.payload.length < UInt64.size) :
    Recorded.Writable message := by
  have hlow := message.key.le_toInt
  have hhigh := message.key.toInt_lt
  refine .cons (.inl ⟨by omega, by omega, fitsArgument_int32 _⟩) (.cons ?_ (.cons (.inl h) .nil))
  cases message.clientId with
  | none => exact .inr ⟨rfl, rfl⟩
  | some id => exact .inl ⟨Bytes.length_ofNat _ _, by decide⟩

theorem Descriptor.writable {d : Descriptor} (h : d.identifier.utf8ByteSize < UInt64.size) :
    Recorded.Writable d := by
  have hword (n : UInt32) : (0 : Int) ≤ n.toNat ∧ (n.toNat : Int) ≤ 0xffffffff := by
    have hlt := n.toNat_lt
    omega
  refine .cons (.inl h) (.cons (.inl ⟨(hword _).1, (hword _).2, fitsArgument_word32 _⟩)
    (.cons (.inl ⟨(hword _).1, (hword _).2, fitsArgument_word32 _⟩) (.cons ?_ .nil)))
  cases d.blockSize with
  | none => exact .inr ⟨rfl, rfl⟩
  | some size => exact .inl ⟨(hword _).1, (hword _).2, fitsArgument_word32 _⟩

theorem KeyPackage.writable {package : KeyPackage} (hkey : package.key.length < UInt64.size)
    (hiv : package.iv.length < UInt64.size) : Recorded.Writable package :=
  .cons (.inl hkey) (.cons (.inl hiv) .nil)

theorem Handshake.decode_encode {α : Type} [Recorded α] [LawfulRecorded α] {a : α}
    (h : Recorded.Writable a) (rest : Bytes) :
    Handshake.decode (Recorded.encode a ++ rest) = .done a := by
  rw [Handshake.decode, Recorded.decode_encode h]

theorem Handshake.decode_record {α : Type} [Recorded α] [LawfulRecorded α] {a : α}
    (h : Recorded.Writable a) : Handshake.decode (Recorded.encode a) = .done a := by
  have hdecode := Handshake.decode_encode h []
  rwa [List.append_nil] at hdecode

theorem Codec.records_encode (message : Message) :
    records.encode message = .ok (Recorded.encode message) := by
  simp only [encode, records, Recorded.appendTo_eq, List.nil_append]

theorem Codec.eq_of_records_encode {message : Message} {payload : Bytes}
    (h : records.encode message = .ok payload) : payload = Recorded.encode message :=
  Except.ok.inj (h.symm.trans (records_encode message))

theorem Codec.records_size (message : Message) :
    records.size message = .ok (Recorded.encodedSize message) :=
  rfl

theorem Codec.records_decode_encode {message : Message} (h : Recorded.Writable message)
    (rest : Bytes) : records.decode (Recorded.encode message ++ rest) = .ok message := by
  simp only [records, Recorded.decode_encode h, Except.mapError]

/-- Every record is appended to what the sink holds, is read back in front of
whatever follows, and has the size that was computed without writing it. -/
theorem wire_records_round_trip (prior trailing : Bytes) :
    (∀ message : Message, message.payload.length < UInt64.size →
      ∃ record, Codec.records.appendTo prior message = .ok (prior ++ record) ∧
        Codec.records.decode (record ++ trailing) = .ok message ∧
        Codec.records.size message = .ok record.length) ∧
    (∀ d : Descriptor, d.identifier.utf8ByteSize < UInt64.size →
      ∃ record, Recorded.appendTo prior d = prior ++ record ∧
        Handshake.decode (record ++ trailing) = .done d ∧
        Recorded.encodedSize d = record.length) ∧
    (∀ package : KeyPackage, package.key.length < UInt64.size →
      package.iv.length < UInt64.size →
      ∃ record, Recorded.appendTo prior package = prior ++ record ∧
        Handshake.decode (record ++ trailing) = .done package ∧
        Recorded.encodedSize package = record.length) := by
  refine ⟨?_, ?_, ?_⟩
  · intro message h
    refine ⟨Recorded.encode message, ?_, Codec.records_decode_encode (Message.writable h) _, ?_⟩
    · simp only [Codec.records, Recorded.appendTo_eq]
    · simp only [Codec.records, Recorded.length_encode]
  · intro d h
    exact ⟨Recorded.encode d, Recorded.appendTo_eq _ _,
      Handshake.decode_encode (Descriptor.writable h) _, (Recorded.length_encode d).symm⟩
  · intro package hkey hiv
    exact ⟨Recorded.encode package, Recorded.appendTo_eq _ _,
      Handshake.decode_encode (KeyPackage.writable hkey hiv) _,
      (Recorded.length_encode package).symm⟩

/-- The shortest forms on both sides of 24, a negative key and a size left out. -/
theorem wire_records_round_trip_at :
    (List.replicate 24 (7 : UInt8)).length < UInt64.size ∧
    "AES-256".utf8ByteSize < UInt64.size ∧ [(9 : UInt8)].length < UInt64.size ∧
    (∃ record, Codec.records.appendTo [0xaa] ⟨-24, some (.ofNat 5), List.replicate 24 7⟩ =
        .ok ([0xaa] ++ record) ∧
      Codec.records.decode (record ++ [0xff]) = .ok ⟨-24, some (.ofNat 5), List.replicate 24 7⟩ ∧
      Codec.records.size ⟨-24, some (.ofNat 5), List.replicate 24 7⟩ = .ok record.length) ∧
    (∃ record, Recorded.appendTo [0xaa] (⟨"AES-256", 256, 65536, none⟩ : Descriptor) =
        [0xaa] ++ record ∧
      Handshake.decode (record ++ [0xff]) = .done (⟨"AES-256", 256, 65536, none⟩ : Descriptor) ∧
      Recorded.encodedSize (⟨"AES-256", 256, 65536, none⟩ : Descriptor) = record.length) ∧
    (∃ record, Recorded.appendTo [0xaa] (⟨[9], [9]⟩ : KeyPackage) = [0xaa] ++ record ∧
      Handshake.decode (record ++ [0xff]) = .done (⟨[9], [9]⟩ : KeyPackage) ∧
      Recorded.encodedSize (⟨[9], [9]⟩ : KeyPackage) = record.length) :=
  have h := wire_records_round_trip [0xaa] [0xff]
  ⟨by decide, by decide, by decide, h.1 _ (by decide), h.2.1 _ (by decide),
    h.2.2 _ (by decide) (by decide)⟩

end CipherLink
