import CipherLink.Proofs.Handshake.Stages
import CipherLink.Proofs.WireRecords

/-!
# What one side sends and the other hears

A field, a list of offers and a key package are heard as they were sent, and the
bytes behind them are left for the next stage; every record that a handshake
writes can be read. Where the content is encrypted,
the keys of the side that hears have to open what the keys of the other side
encrypt.
-/

namespace CipherLink

/-- Whether what is encrypted under the keys of `x` is decrypted with those of `y`. -/
def KeyExchange.Opens (y x : KeyExchange) : Prop :=
  ∀ (noise : Noise) (bs cs : Bytes), x.encrypt noise bs = .ok cs → y.decrypt cs = .ok bs

theorem length_toString_word32 (n : UInt32) : (toString n).length ≤ 10 := by
  have hlt := n.toNat_lt
  exact (Nat.length_repr_le_iff (by decide)).mpr (by omega)

theorem utf8ByteSize_named_le {family : String} (h : family.utf8ByteSize ≤ 4) (n : UInt32) :
    (family ++ toString n).utf8ByteSize ≤ 44 := by
  have hlength := length_toString_word32 n
  have hbytes := Bytes.length_ofString_le (toString n)
  rw [Bytes.length_ofString] at hbytes
  rw [String.utf8ByteSize_append]
  omega

theorem utf8ByteSize_named {family : String} (h : family.utf8ByteSize ≤ 4) (n : UInt32) :
    (family ++ toString n).utf8ByteSize < UInt64.size :=
  Nat.lt_of_le_of_lt (utf8ByteSize_named_le h n) (by decide)

theorem KeyExchangeAlgorithm.writable (a : KeyExchangeAlgorithm) :
    Recorded.Writable a.descriptor := by
  cases a with
  | identity => exact Descriptor.writable (by decide)
  | rsa size => exact Descriptor.writable (utf8ByteSize_named (by decide) size)

theorem SymmetricAlgorithm.writable (a : SymmetricAlgorithm) : Recorded.Writable a.descriptor := by
  cases a with
  | identity => exact Descriptor.writable (by decide)
  | aes size => exact Descriptor.writable (utf8ByteSize_named (by decide) size)

theorem Container.writable_of_mem_supported {α : Type} [Algorithm α] {c : Container α}
    (h : ∀ a : α, Recorded.Writable (Algorithm.descriptor a)) :
    ∀ d ∈ c.supported, Recorded.Writable d := by
  intro d hd
  obtain ⟨a, -, rfl⟩ := List.mem_map.mp hd
  exact h a

theorem SymmetricAlgorithm.writable_drawPackage (a : SymmetricAlgorithm) (noise : Noise) :
    Recorded.Writable (a.drawPackage noise) := by
  have hkey : a.keyLength < UInt64.size := by
    cases a with
    | identity => decide
    | aes size =>
      have hlt := size.toNat_lt
      simp only [keyLength, UInt64.size]
      omega
  have hiv : a.ivLength < UInt64.size := by
    cases a <;> simp [ivLength, UInt64.size]
  apply KeyPackage.writable
  · rwa [drawPackage, Noise.length_take]
  · rwa [drawPackage, Noise.length_take]

namespace Handshake

open Dialogue

variable {heard more behind rest sent words : Bytes} {limit : Nat} {u : Unit}

theorem receiveNumber_sendNumber {m n : Nat}
    (hsend : (sendNumber n).converse heard = some (u, sent, behind))
    (hreceive : (receiveNumber limit).converse (sent ++ more) = some (m, words, rest)) :
    m = n ∧ rest = more := by
  obtain ⟨hle, rfl, -⟩ := converse_sendNumber hsend
  obtain ⟨-, bytes, hsplit, hm, -⟩ := converse_receiveNumber hreceive
  rw [Cbor.Header.split?_ofNat, Option.some.injEq, Prod.mk.injEq] at hsplit
  obtain ⟨rfl, rfl⟩ := hsplit
  have hbound : 2 * n < 256 ^ numberLength := by
    simp only [Frame.greatestLength, numberLength] at hle ⊢
    omega
  rw [Bytes.toInt_ofNat hbound] at hm
  exact ⟨by omega, rfl⟩

theorem receiveField_sendField {content field : Bytes}
    (hsend : (sendField content).converse heard = some (u, sent, behind))
    (hreceive : (receiveField limit).converse (sent ++ more) = some (field, words, rest)) :
    field = content ∧ rest = more := by
  obtain ⟨_, number, _, _, hnumber, hcontent, rfl⟩ := converse_bind_eq_some hsend
  simp only [converse, Option.map_some, List.append_nil, Option.some.injEq,
    Prod.mk.injEq] at hcontent
  obtain ⟨-, rfl, -⟩ := hcontent
  obtain ⟨n, _, _, _, hlength, hfield, -⟩ := converse_bind_eq_some hreceive
  rw [List.append_assoc] at hlength
  obtain ⟨rfl, rfl⟩ := receiveNumber_sendNumber hnumber hlength
  rw [converse, Bytes.split?_append] at hfield
  simp only [converse, Option.some.injEq, Prod.mk.injEq] at hfield
  exact ⟨hfield.1.symm, hfield.2.2.symm⟩

theorem receiveEach_sendEach {x y : KeyExchange} (hopens : y.Opens x) {noise : Noise}
    {offers theirs : List Descriptor} (hoffers : ∀ d ∈ offers, Recorded.Writable d)
    (hsend : (sendEach x noise offers).converse heard = some (u, sent, behind))
    (hreceive : (receiveEach y limit offers.length).converse (sent ++ more) =
      some (theirs, words, rest)) : theirs = offers ∧ rest = more := by
  induction offers generalizing noise heard sent theirs words with
  | nil =>
    simp only [sendEach, receiveEach, List.length_nil, converse, Option.some.injEq,
      Prod.mk.injEq] at hsend hreceive
    obtain ⟨-, rfl, -⟩ := hsend
    exact ⟨hreceive.1.symm, hreceive.2.2.symm⟩
  | cons offer offers ih =>
    rw [sendEach] at hsend
    obtain ⟨record, _, _, _, hrecord, hrest, rfl⟩ := converse_bind_eq_some hsend
    obtain ⟨hencrypt, rfl, -⟩ := converse_ofCrypto hrecord
    obtain ⟨_, first, _, last, hfirst, hlast, rfl⟩ := converse_bind_eq_some hrest
    rw [List.length_cons, receiveEach] at hreceive
    obtain ⟨field, _, _, _, hfield, hopen, -⟩ := converse_bind_eq_some hreceive
    rw [List.nil_append, List.append_assoc] at hfield
    obtain ⟨rfl, rfl⟩ := receiveField_sendField hfirst hfield
    obtain ⟨plain, _, _, _, hplain, hdecode, -⟩ := converse_bind_eq_some hopen
    obtain ⟨hdecrypt, -, rfl⟩ := converse_ofCrypto hplain
    rw [hopens _ _ _ hencrypt, Except.ok.injEq] at hdecrypt
    subst hdecrypt
    obtain ⟨d, _, _, _, hd, hnext, -⟩ := converse_bind_eq_some hdecode
    obtain ⟨hrecorded, -, rfl⟩ := converse_decode hd
    have hwritten := Recorded.decode_encode (hoffers offer List.mem_cons_self) []
    rw [List.append_nil, hrecorded, Except.ok.injEq] at hwritten
    subst hwritten
    obtain ⟨others, _, _, _, hothers, hdone, -⟩ := converse_bind_eq_some hnext
    simp only [pure, converse, Option.some.injEq, Prod.mk.injEq] at hdone
    obtain ⟨rfl, -, rfl⟩ := hdone
    obtain ⟨rfl, rfl⟩ := ih (fun c hc => hoffers c (List.mem_cons_of_mem d hc)) hlast hothers
    exact ⟨rfl, rfl⟩

theorem receiveOffers_sendOffers {x y : KeyExchange} (hopens : y.Opens x) {noise : Noise}
    {offers theirs : List Descriptor} (hoffers : ∀ d ∈ offers, Recorded.Writable d)
    (hsend : (sendOffers x noise offers).converse heard = some (u, sent, behind))
    (hreceive : (receiveOffers y limit).converse (sent ++ more) = some (theirs, words, rest)) :
    theirs = offers ∧ rest = more := by
  obtain ⟨_, number, _, records, hnumber, hrecords, rfl⟩ := converse_bind_eq_some hsend
  obtain ⟨n, _, _, _, hcount, heach, -⟩ := converse_bind_eq_some hreceive
  rw [List.append_assoc] at hcount
  obtain ⟨rfl, rfl⟩ := receiveNumber_sendNumber hnumber hcount
  exact receiveEach_sendEach hopens hoffers hrecords heach

end Handshake

end CipherLink
