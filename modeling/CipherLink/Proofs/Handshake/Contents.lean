import CipherLink.Proofs.Handshake.Transmission
import CipherLink.Proofs.Handshake.Wire
import CipherLink.Proofs.KeySchedule
import CipherLink.Proofs.Rsa.Inversion
import CipherLink.Proofs.Rsa.KeyText

/-!
# The fields of a handshake and their lengths

The fields that a party writes for another one, as far as the algorithms of both let
the handshake go on. None of them is long: the record of an algorithm or a key package
takes 128 bytes at most, encryption makes one block out of every chunk, and a modulus
has 4096 bits at most. So a limit of 64 KiB is never in the way.
-/

namespace CipherLink

def Handshake.recordLength : Nat := 128

theorem Cbor.Header.argumentSize_le (n : Nat) : argumentSize n ≤ 9 := by
  unfold argumentSize
  split_ifs <;> omega

theorem Cbor.Value.size_integer_le (n : Int) : (Cbor.Value.integer n).size ≤ 9 := by
  cases n <;> exact Cbor.Header.argumentSize_le _

theorem Descriptor.length_encode_le {d : Descriptor} (h : d.identifier.utf8ByteSize ≤ 44) :
    (Recorded.encode d).length ≤ Handshake.recordLength := by
  obtain ⟨identifier, keySize, strength, blockSize⟩ := d
  have hidentifier : (Cbor.Value.text identifier).size ≤ 53 := by
    have hargument := Cbor.Header.argumentSize_le identifier.utf8ByteSize
    simp only [Cbor.Value.size] at h ⊢
    omega
  have hsize := Cbor.Value.size_integer_le keySize.toNat
  have hstrength := Cbor.Value.size_integer_le strength.toNat
  have hnames : (Cbor.Value.text "identifier").size = 11 ∧ (Cbor.Value.text "key_size").size = 9 ∧
      (Cbor.Value.text "strength").size = 9 ∧ (Cbor.Value.text "block_size").size = 11 := by
    decide
  have hfields : Cbor.Header.argumentSize 4 = 1 := rfl
  rw [Recorded.length_encode]
  simp only [Recorded.encodedSize, Recorded.schema, Recorded.values, Cbor.Schema.size,
    List.zip_cons_cons, List.zip_nil_right, List.foldr_cons, List.foldr_nil, List.length_cons,
    List.length_nil, Nat.reduceAdd, Handshake.recordLength]
  cases blockSize with
  | none =>
    have habsent : Cbor.Value.absent.size = 1 := rfl
    dsimp only
    omega
  | some size =>
    have hblock := Cbor.Value.size_integer_le size.toNat
    dsimp only
    omega

theorem KeyExchangeAlgorithm.length_encode_le (a : KeyExchangeAlgorithm) :
    (Recorded.encode a.descriptor).length ≤ Handshake.recordLength := by
  cases a with
  | identity => exact Descriptor.length_encode_le (by decide)
  | rsa size => exact Descriptor.length_encode_le (utf8ByteSize_named_le (by decide) size)

theorem SymmetricAlgorithm.length_encode_le (a : SymmetricAlgorithm) :
    (Recorded.encode a.descriptor).length ≤ Handshake.recordLength := by
  cases a with
  | identity => exact Descriptor.length_encode_le (by decide)
  | aes size => exact Descriptor.length_encode_le (utf8ByteSize_named_le (by decide) size)

theorem SymmetricAlgorithm.Usable.lengths {a : SymmetricAlgorithm} (h : a.Usable) :
    a.keyLength ≤ 32 ∧ a.ivLength ≤ 16 := by
  cases a with
  | identity => decide
  | aes size =>
    simp only [Usable, namedSizes, List.mem_cons, List.not_mem_nil, or_false] at h
    rcases h with rfl | rfl | rfl <;> decide

theorem SymmetricAlgorithm.Usable.length_encode_le {a : SymmetricAlgorithm} (h : a.Usable)
    (noise : Noise) : (Recorded.encode (a.drawPackage noise)).length ≤ Handshake.recordLength := by
  obtain ⟨hkey, hiv⟩ := h.lengths
  have hsize := Cbor.Header.argumentSize_le a.keyLength
  have hsize' := Cbor.Header.argumentSize_le a.ivLength
  have hnames : (Cbor.Value.text "symmetric_key").size = 14 ∧
      (Cbor.Value.text "initialization_vector").size = 22 := by
    decide
  have hfields := Cbor.Header.argumentSize_le 2
  rw [Recorded.length_encode]
  simp only [Recorded.encodedSize, Recorded.schema, Recorded.values, Cbor.Schema.size,
    List.zip_cons_cons, List.zip_nil_right, List.foldr_cons, List.foldr_nil, List.length_cons,
    List.length_nil, Nat.reduceAdd, Handshake.recordLength, SymmetricAlgorithm.drawPackage,
    Cbor.Value.size, Noise.length_take] at hnames ⊢
  omega

theorem SymmetricAlgorithm.Usable.draws {s : SymmetricAlgorithm} (h : s.Usable) (noise : Noise) :
    (∃ t, s.encryptor (s.drawPackage noise) = .ok t) ∧
      ∃ t, s.decryptor (s.drawPackage noise) = .ok t :=
  exists_transforms (h.exists_keyed (Noise.length_take _ _) (Noise.length_take _ _))

theorem Bytes.length_chunks_le (w : Nat) (bs : Bytes) : (bs.chunks w).length ≤ bs.length := by
  fun_induction Bytes.chunks w bs with
  | case1 => exact Nat.le_refl 0
  | case2 b bs ih =>
    simp only [List.length_cons, List.length_drop] at ih ⊢
    omega

namespace Rsa

theorem PublicKey.blockLength_le (key : PublicKey) : key.blockLength ≤ greatestBits / 8 := by
  have hbits := key.supported.1
  simp only [blockLength, greatestBits] at hbits ⊢
  omega

theorem PublicKey.length_encrypt_le {key : PublicKey} {noise : Noise} {bs cs : Bytes}
    (h : key.encrypt noise bs = .ok cs) : cs.length ≤ greatestBits / 8 * bs.length := by
  rw [encrypt] at h
  split at h
  · simp at h
  · obtain rfl := Except.ok.inj h
    rw [length_encryptChunks]
    exact Nat.mul_le_mul key.blockLength_le (Bytes.length_chunks_le _ _)

theorem PublicKey.exists_encrypt {key : PublicKey} (h : paddingOverhead < key.blockLength)
    (noise : Noise) (bs : Bytes) : ∃ cs, key.encrypt noise bs = .ok cs :=
  ⟨_, encrypt_eq h noise bs⟩

end Rsa

theorem KeyExchange.length_encrypt_le {x : KeyExchange} {noise : Noise} {bs cs : Bytes}
    (h : x.encrypt noise bs = .ok cs) : cs.length ≤ Rsa.greatestBits / 8 * bs.length := by
  cases x with
  | identity =>
    obtain rfl := Except.ok.inj h
    exact Nat.le_mul_of_pos_left _ (by decide)
  | rsa x =>
    simp only [encrypt, RsaExchange.encrypt] at h
    split at h
    · exact Rsa.PublicKey.length_encrypt_le h
    · simp at h

theorem Der.length_item_le (tag : UInt8) {content : Bytes} (h : content.length < UInt64.size) :
    (item tag content).length ≤ content.length + 10 := by
  have hlength : (writeLength content.length).length ≤ 9 := by
    rw [writeLength]
    split
    · simp
    · have hdigits := digitCount_le h
      rw [List.length_cons, Bytes.length_ofNat]
      omega
  simp only [item, List.cons_append, List.length_cons, List.length_append]
  omega

theorem Pem.length_lines_le (content : Bytes) :
    (lines content).length ≤ 2 * (Base64.encode content).length := by
  have hcount := Bytes.length_chunks_le lineWidth (Base64.encode content)
  have hflatten : ((Bytes.chunks lineWidth (Base64.encode content)).map List.length).sum =
      (Base64.encode content).length := by
    rw [← List.length_flatten, Bytes.flatten_chunks]
  have hends (chunks : List Bytes) : (chunks.flatMap fun line => line ++ [lineFeed]).length =
      (chunks.map List.length).sum + chunks.length := by
    induction chunks with
    | nil => rfl
    | cons chunk chunks ih =>
      simp only [List.flatMap_cons, List.length_append, List.length_cons, List.length_nil,
        List.map_cons, List.sum_cons, ih]
      omega
  rw [lines, hends]
  omega

theorem Rsa.PublicKey.length_toText_le (key : PublicKey) : key.toText.length ≤ 64 * 1024 := by
  have hnumbers : ([Der.integer key.modulus, Der.integer key.exponent].flatten).length ≤
      2 * (2 * greatestBits + 6) := by
    have hmodulus := key.log2_modulus_lt
    have hexponent := key.log2_exponent_lt
    have hsmall : ∀ n ∈ [key.modulus, key.exponent], n.log2 < greatestBits := by
      simp only [List.mem_cons, List.not_mem_nil, or_false, forall_eq_or_imp, forall_eq]
      simp only [greatestBits] at hmodulus ⊢
      omega
    exact Der.length_integers hsmall
  rw [greatestBits] at hnumbers
  have hsequence := Der.length_item_le Der.sequenceTag (Nat.lt_of_le_of_lt hnumbers (by decide))
  have hlines := Pem.length_lines_le
    (Der.sequence [Der.integer key.modulus, Der.integer key.exponent])
  have hframe : (Pem.beginLine label).length = 30 ∧ (Pem.endLine label).length = 28 := by
    decide
  rw [Base64.length_encode] at hlines
  rw [toText, Pem.encode_eq]
  simp only [List.length_append, List.length_cons, List.length_nil, hframe]
  rw [← Der.sequence] at hsequence
  omega

namespace Handshake

def keyExchangeWith (p q : Party) : Option KeyExchangeAlgorithm :=
  p.config.keyExchange.selectStrongest q.config.keyExchange.supported

def symmetricWith (p q : Party) : Option SymmetricAlgorithm :=
  p.config.symmetric.selectStrongest q.config.symmetric.supported

def keyPair? (p : Party) : KeyExchangeAlgorithm → Option Rsa.PrivateKey
  | .identity => none
  | .rsa size => (Rsa.obtain size.toNat p.config.keyLifetime p.files p.noise.even.even).1.toOption

def publicText (p : Party) (a : KeyExchangeAlgorithm) : Bytes :=
  match keyPair? p a with
  | some key => key.publicKey.toText
  | none => []

def keysToward (p q : Party) (a : KeyExchangeAlgorithm) : KeyExchange :=
  match a with
  | .identity => .identity
  | .rsa size =>
    .rsa ⟨size.toNat, p.config.keyLifetime, keyPair? p a,
      (keyPair? q a).map Rsa.PrivateKey.publicKey⟩

/-- The contents of the fields that a party writes for another one. -/
inductive Writes (p q : Party) : Bytes → Prop
  | keyExchange (a : KeyExchangeAlgorithm) (ha : a ∈ p.config.keyExchange.algorithms) :
    Writes p q (Recorded.encode a.descriptor)
  | publicKey {a : KeyExchangeAlgorithm} (ha : keyExchangeWith p q = some a) :
    Writes p q (publicText p a)
  | symmetric {a : KeyExchangeAlgorithm} {record : Bytes} (ha : keyExchangeWith p q = some a)
    (hrecord : record ∈ records (keysToward p q a) p.noise.even.odd p.config.symmetric.supported) :
    Writes p q record
  | package {a : KeyExchangeAlgorithm} {s : SymmetricAlgorithm} {record : Bytes}
    (ha : keyExchangeWith p q = some a) (hs : symmetricWith p q = some s)
    (hrecord : (keysToward p q a).encrypt p.noise.odd.odd
      (Recorded.encode (s.drawPackage p.noise.odd.even)) = .ok record) : Writes p q record

theorem exists_of_mem_records {x : KeyExchange} {noise : Noise} {offers : List Descriptor}
    {record : Bytes} (h : record ∈ records x noise offers) :
    ∃ offer ∈ offers, ∃ drawn, x.encrypt drawn (Recorded.encode offer) = .ok record := by
  induction offers generalizing noise with
  | nil => simp [records] at h
  | cons offer offers ih =>
    rw [records] at h
    split at h
    · next hencrypt =>
      rcases List.mem_cons.mp h with rfl | h
      · exact ⟨offer, List.mem_cons_self, _, hencrypt⟩
      · obtain ⟨other, hother, hdrawn⟩ := ih h
        exact ⟨other, List.mem_cons_of_mem offer hother, hdrawn⟩
    · simp at h

theorem length_encrypt_record_le {x : KeyExchange} {noise : Noise} {bs cs : Bytes}
    (hbs : bs.length ≤ recordLength) (h : x.encrypt noise bs = .ok cs) : cs.length ≤ 64 * 1024 :=
  Nat.le_trans (KeyExchange.length_encrypt_le h) (Nat.mul_le_mul_left _ hbs)

theorem length_le_of_mem_records {x : KeyExchange} {noise : Noise}
    {c : Container SymmetricAlgorithm} {record : Bytes}
    (h : record ∈ records x noise c.supported) : record.length ≤ 64 * 1024 := by
  obtain ⟨_, hoffer, _, hdrawn⟩ := exists_of_mem_records h
  obtain ⟨s, -, rfl⟩ := List.mem_map.mp hoffer
  exact length_encrypt_record_le s.length_encode_le hdrawn

theorem Writes.length_le {p q : Party}
    (husable : ∀ a s, keyExchangeWith p q = some a → symmetricWith p q = some s → s.Usable)
    {content : Bytes} (h : Writes p q content) : content.length ≤ 64 * 1024 := by
  cases h with
  | keyExchange a ha => exact Nat.le_trans a.length_encode_le (by decide)
  | publicKey ha =>
    rw [publicText]
    split
    · exact Rsa.PublicKey.length_toText_le _
    · decide
  | symmetric ha hrecord => exact length_le_of_mem_records hrecord
  | package ha hs hrecord =>
    exact length_encrypt_record_le ((husable _ _ ha hs).length_encode_le _) hrecord

end Handshake

end CipherLink
