import CipherLink.Cbor.Record
import CipherLink.Proofs.Digits
import CipherLink.Proofs.Utf8

/-!
# Items read back

A header in its shortest form is read back with what follows it untouched, at
every width of its argument, and so is the one form in which the value of a field
is written. The lengths of strings have to fit the 64 bits of an argument.
-/

namespace CipherLink.Cbor

namespace Header

theorem lead_toNat {major minor : Nat} (hmajor : major < 8) (hminor : minor < 32) :
    (UInt8.ofNat (major * 32 + minor)).toNat = major * 32 + minor := by
  rw [UInt8.toNat_ofNat']
  omega

theorem read_lead {major minor n : Nat} {header : Header} {bs rest : Bytes}
    (hmajor : major < 8) (hminor : minor < 32)
    (hargument : readArgument minor bs = .ok (some n, rest))
    (hparts : ofParts major minor (some n) = .ok header) :
    read (UInt8.ofNat (major * 32 + minor) :: bs) = .ok (header, rest) := by
  have hmod : (major * 32 + minor) % 32 = minor := by omega
  have hdiv : (major * 32 + minor) / 32 = major := by omega
  simp only [read, lead_toNat hmajor hminor, hmod, hdiv, hargument, hparts, bind, Except.bind, pure,
    Except.pure]

theorem split?_ofNat (w n : Nat) (rest : Bytes) :
    (Bytes.ofNat w n ++ rest).split? w = some (Bytes.ofNat w n, rest) := by
  have hsplit := Bytes.split?_append (Bytes.ofNat w n) rest
  rwa [Bytes.length_ofNat] at hsplit

theorem read_writeArgument {major n : Nat} {header : Header} (hmajor : major < 8)
    (hn : n < UInt64.size) (hparts : ∀ minor, ofParts major minor (some n) = .ok header)
    (rest : Bytes) : read (writeArgument major n ++ rest) = .ok (header, rest) := by
  have hwide (minor w : Nat) (hw : n < 256 ^ w)
      (hread : readArgument minor (Bytes.ofNat w n ++ rest) =
        .ok (some (Bytes.ofNat w n).toNat, rest)) (hminor : minor < 32) :
      read (UInt8.ofNat (major * 32 + minor) :: (Bytes.ofNat w n ++ rest)) = .ok (header, rest) := by
    rw [Bytes.toNat_ofNat hw] at hread
    exact read_lead hmajor hminor hread (hparts _)
  unfold writeArgument
  split_ifs with h24 h8 h16 h32
  · exact read_lead hmajor (by omega) (by simp [readArgument, h24]) (hparts _)
  · exact hwide 24 1 h8 (by simp [readArgument, split?_ofNat]) (by omega)
  · exact hwide 25 2 h16 (by simp [readArgument, split?_ofNat]) (by omega)
  · exact hwide 26 4 h32 (by simp [readArgument, split?_ofNat]) (by omega)
  · exact hwide 27 8 hn (by simp [readArgument, split?_ofNat]) (by omega)

theorem read_writeBytes {n : Nat} (hn : n < UInt64.size) (rest : Bytes) :
    read (writeBytes n ++ rest) = .ok (.bytes (some n), rest) :=
  read_writeArgument (by decide) hn (fun _ => rfl) rest

theorem read_writeText {n : Nat} (hn : n < UInt64.size) (rest : Bytes) :
    read (writeText n ++ rest) = .ok (.text (some n), rest) :=
  read_writeArgument (by decide) hn (fun _ => rfl) rest

theorem read_writeMap {n : Nat} (hn : n < UInt64.size) (rest : Bytes) :
    read (writeMap n ++ rest) = .ok (.map (some n), rest) :=
  read_writeArgument (by decide) hn (fun _ => rfl) rest

theorem read_writeNull (rest : Bytes) : read (writeNull ++ rest) = .ok (.simple 22, rest) := rfl

end Header

theorem readPastTags_of_read {bs rest : Bytes} {header : Header}
    (h : Header.read bs = .ok (header, rest)) (htag : ∀ t, header ≠ .tag t) :
    readPastTags bs = .ok (header, rest) := by
  rw [readPastTags]
  split
  · next hread => simp [h] at hread
  · next t _ hread =>
    rw [h, Except.ok.injEq, Prod.mk.injEq] at hread
    exact absurd hread.1 (htag t)
  · next hread =>
    rw [h] at hread
    exact hread.symm

theorem readOctets_append (gathered content rest : Bytes) :
    readOctets gathered content.length (content ++ rest) = .ok (gathered ++ content, rest) := by
  simp only [readOctets, Bytes.split?_append]

def FitsArgument : Int → Prop
  | .ofNat n => n < UInt64.size
  | .negSucc n => n < UInt64.size

theorem readInteger_of_positive {bs rest : Bytes} {n : Nat}
    (h : Header.read bs = .ok (.positive n, rest)) : readInteger bs = .ok (n, rest) := by
  rw [readInteger]
  split
  · next hread => simp [h] at hread
  · next hread =>
    rw [h, Except.ok.injEq, Prod.mk.injEq, Header.positive.injEq] at hread
    obtain ⟨rfl, rfl⟩ := hread
    rfl
  · next hread => simp [h] at hread
  · next hread => simp [h] at hread
  · next hother _ _ hread =>
    rw [h, Except.ok.injEq] at hread
    exact absurd hread.symm (hother _ _)

theorem readInteger_of_negative {bs rest : Bytes} {n : Nat}
    (h : Header.read bs = .ok (.negative n, rest)) : readInteger bs = .ok (Int.negSucc n, rest) := by
  rw [readInteger]
  split
  · next hread => simp [h] at hread
  · next hread => simp [h] at hread
  · next hread =>
    rw [h, Except.ok.injEq, Prod.mk.injEq, Header.negative.injEq] at hread
    obtain ⟨rfl, rfl⟩ := hread
    rfl
  · next hread => simp [h] at hread
  · next hother _ hread =>
    rw [h, Except.ok.injEq] at hread
    exact absurd hread.symm (hother _ _)

theorem readInteger_writeInt {n : Int} (hn : FitsArgument n) (rest : Bytes) :
    readInteger (Header.writeInt n ++ rest) = .ok (n, rest) := by
  cases n with
  | ofNat n =>
    exact readInteger_of_positive (Header.read_writeArgument (by decide) hn (fun _ => rfl) rest)
  | negSucc n =>
    exact readInteger_of_negative (Header.read_writeArgument (by decide) hn (fun _ => rfl) rest)

def Kind.Admits : Kind → Value → Prop
  | .integer low high, .integer n => low ≤ n ∧ n ≤ high ∧ FitsArgument n
  | .octets, .octets bytes => bytes.length < UInt64.size
  | .fixed length, .octets bytes => bytes.length = length ∧ length ≤ windowSize
  | .text, .text s => s.utf8ByteSize < UInt64.size
  | _, _ => False

theorem windowSize_lt : windowSize < UInt64.size := by decide

theorem Kind.read_write {kind : Kind} {value : Value} (h : kind.Admits value) (rest : Bytes) :
    kind.read (value.write ++ rest) = .ok (value, rest) := by
  cases kind with
  | integer low high =>
    obtain n | _ | _ | _ := value <;> try exact h.elim
    obtain ⟨hlow, hhigh, hfits⟩ := h
    simp [read, Value.write, readIntegerIn, readInteger_writeInt hfits, hlow, hhigh, asValue]
  | octets =>
    obtain _ | bytes | _ | _ := value <;> try exact h.elim
    have hpast := readPastTags_of_read (Header.read_writeBytes h (bytes ++ rest)) (by simp)
    simp [read, Value.write, readOctetString, List.append_assoc, hpast, Segments.read,
      Segments.octets, readOctets_append, asValue]
  | fixed length =>
    obtain _ | bytes | _ | _ := value <;> try exact h.elim
    obtain ⟨rfl, hwindow⟩ := h
    have hword : bytes.length < UInt64.size := Nat.lt_of_le_of_lt hwindow windowSize_lt
    have hpast := readPastTags_of_read (Header.read_writeBytes hword (bytes ++ rest)) (by simp)
    simp [read, Value.write, readFixed, List.append_assoc, hpast, Nat.not_lt.mpr hwindow,
      readOctets_append, asValue]
  | text =>
    obtain _ | _ | s | _ := value <;> try exact h.elim
    have hword : (Bytes.ofString s).length < UInt64.size := by rwa [Bytes.length_ofString]
    have hpast := readPastTags_of_read
      (Header.read_writeText hword (Bytes.ofString s ++ rest)) (by simp)
    have htext := readText_ofString "" rest (List.nil_append (Bytes.ofString s)) (by simp)
      (fun _ => rfl)
    simp [read, Value.write, readTextItem, List.append_assoc, hpast, Segments.read,
      Segments.text, htext, asValue]

def Field.Admits (field : Field) (value : Value) : Prop :=
  field.kind.Admits value ∨ field.optional ∧ value = .absent

theorem Kind.read_header {kind : Kind} {value : Value} (h : kind.Admits value) (rest : Bytes) :
    ∃ header others, Header.read (value.write ++ rest) = .ok (header, others) ∧
      header.isAbsent = false := by
  cases kind with
  | integer low high =>
    obtain (n | n) | _ | _ | _ := value <;> try exact h.elim
    · exact ⟨.positive n, _, Header.read_writeArgument (by decide) h.2.2 (fun _ => rfl) rest, rfl⟩
    · exact ⟨.negative n, _, Header.read_writeArgument (by decide) h.2.2 (fun _ => rfl) rest, rfl⟩
  | octets =>
    obtain _ | bytes | _ | _ := value <;> try exact h.elim
    simp only [Value.write, List.append_assoc]
    exact ⟨_, _, Header.read_writeBytes h _, rfl⟩
  | fixed length =>
    obtain _ | bytes | _ | _ := value <;> try exact h.elim
    obtain ⟨rfl, hwindow⟩ := h
    simp only [Value.write, List.append_assoc]
    exact ⟨_, _, Header.read_writeBytes (Nat.lt_of_le_of_lt hwindow windowSize_lt) _, rfl⟩
  | text =>
    obtain _ | _ | s | _ := value <;> try exact h.elim
    simp only [Value.write, List.append_assoc]
    exact ⟨_, _, Header.read_writeText (by rwa [Bytes.length_ofString]) _, rfl⟩

theorem Field.read_write {field : Field} {value : Value} (h : field.Admits value) (rest : Bytes) :
    field.read (value.write ++ rest) = .ok (value, rest) := by
  unfold read
  rcases h with h | ⟨hoptional, rfl⟩
  · split_ifs
    · obtain ⟨header, others, hread, hpresent⟩ := Kind.read_header h rest
      simp [Kind.readOptional, hread, hpresent, Kind.read_write h]
    · exact Kind.read_write h rest
  · simp [hoptional, Kind.readOptional, Value.write, Header.read_writeNull, Header.isAbsent]

theorem readName_write {name : String} (h : name.utf8ByteSize ≤ windowSize) (rest : Bytes) :
    readName ((Value.text name).write ++ rest) = .ok (Bytes.ofString name, rest) := by
  have hlength : (Bytes.ofString name).length ≤ windowSize := by rwa [Bytes.length_ofString]
  have hpast := readPastTags_of_read (Header.read_writeText
    (Nat.lt_of_le_of_lt hlength windowSize_lt) (Bytes.ofString name ++ rest)) (by simp)
  simp [readName, Value.write, List.append_assoc, hpast, Nat.not_lt.mpr hlength,
    readOctets_append, Bytes.utf8?_ofString]

theorem Value.length_write (value : Value) : value.write.length = value.size := by
  cases value with
  | integer n => cases n <;> exact Header.length_writeArgument _ _
  | octets bytes =>
    simp only [write, size, List.length_append, Header.writeBytes, Header.length_writeArgument]
  | text s =>
    simp only [write, size, List.length_append, Header.writeText, Header.length_writeArgument,
      Bytes.length_ofString]
  | absent => rfl

end CipherLink.Cbor
