import CipherLink.Handshake
import CipherLink.Proofs.Dialogues
import CipherLink.Proofs.Selection

/-!
# The stages of a handshake

A handshake that comes to its end has gone through all its stages. In each of
them a side first sends and hears nothing, and then hears and sends nothing;
what one stage leaves of the bytes that arrive is heard by the next.
-/

namespace CipherLink.Handshake

open Dialogue

variable {heard sent rest : Bytes}

theorem converse_sendNumber {n : Nat} {u : Unit}
    (h : (sendNumber n).converse heard = some (u, sent, rest)) :
    n ≤ Frame.greatestLength ∧ sent = Bytes.ofNat numberLength n ∧ rest = heard := by
  rw [sendNumber] at h
  split at h
  · simp [converse] at h
  · next hle =>
    simp only [converse, Option.map_some, List.append_nil, Option.some.injEq,
      Prod.mk.injEq] at h
    exact ⟨by omega, h.2.1.symm, h.2.2.symm⟩

theorem converse_sendField {content : Bytes} {u : Unit}
    (h : (sendField content).converse heard = some (u, sent, rest)) :
    content.length ≤ Frame.greatestLength ∧
      sent = Bytes.ofNat numberLength content.length ++ content ∧ rest = heard := by
  obtain ⟨_, _, _, _, hnumber, hcontent, rfl⟩ := converse_bind_eq_some h
  obtain ⟨hle, rfl, rfl⟩ := converse_sendNumber hnumber
  simp only [converse, Option.map_some, List.append_nil, Option.some.injEq,
    Prod.mk.injEq] at hcontent
  exact ⟨hle, by rw [hcontent.2.1], hcontent.2.2.symm⟩

theorem converse_sendEach {x : KeyExchange} {noise : Noise} {offers : List Descriptor} {u : Unit}
    (h : (sendEach x noise offers).converse heard = some (u, sent, rest)) : rest = heard := by
  induction offers generalizing noise heard sent with
  | nil =>
    simp only [sendEach, converse, Option.some.injEq, Prod.mk.injEq] at h
    exact h.2.2.symm
  | cons offer offers ih =>
    rw [sendEach] at h
    obtain ⟨_, _, _, _, hrecord, hsend, -⟩ := converse_bind_eq_some h
    obtain ⟨-, -, rfl⟩ := converse_ofCrypto hrecord
    obtain ⟨_, _, _, _, hfield, hothers, -⟩ := converse_bind_eq_some hsend
    obtain ⟨-, -, rfl⟩ := converse_sendField hfield
    exact ih hothers

theorem converse_sendOffers {x : KeyExchange} {noise : Noise} {offers : List Descriptor} {u : Unit}
    (h : (sendOffers x noise offers).converse heard = some (u, sent, rest)) : rest = heard := by
  obtain ⟨_, _, _, _, hnumber, heach, -⟩ := converse_bind_eq_some h
  obtain ⟨-, -, rfl⟩ := converse_sendNumber hnumber
  exact converse_sendEach heach

theorem converse_receiveNumber {limit n : Nat}
    (h : (receiveNumber limit).converse heard = some (n, sent, rest)) :
    sent = [] ∧ ∃ bytes : Bytes, Bytes.split? numberLength heard = some (bytes, rest) ∧
      bytes.toInt = n ∧ n ≤ limit := by
  simp only [receiveNumber, converse] at h
  split at h
  · next bytes others hsplit =>
    split at h
    · simp [converse] at h
    · split at h
      · simp [converse] at h
      · simp only [converse, Option.some.injEq, Prod.mk.injEq] at h
        obtain ⟨rfl, rfl, rfl⟩ := h
        exact ⟨rfl, bytes, hsplit, by omega, by omega⟩
  · simp at h

theorem converse_receiveField {limit : Nat} {content : Bytes}
    (h : (receiveField limit).converse heard = some (content, sent, rest)) : sent = [] := by
  obtain ⟨n, _, _, _, hnumber, hcontent, rfl⟩ := converse_bind_eq_some h
  obtain ⟨rfl, -⟩ := converse_receiveNumber hnumber
  simp only [converse] at hcontent
  split at hcontent
  · simp only [Option.some.injEq, Prod.mk.injEq] at hcontent
    rw [← hcontent.2.1, List.append_nil]
  · simp at hcontent

theorem converse_decode {α : Type} [Recorded α] {bs : Bytes} {a : α}
    (h : (decode bs).converse heard = some (a, sent, rest)) :
    Recorded.decode bs = .ok a ∧ sent = [] ∧ rest = heard := by
  rw [decode] at h
  split at h
  · next hdecode =>
    simp only [converse, Option.some.injEq, Prod.mk.injEq] at h
    exact ⟨by rw [hdecode, h.1], h.2.1.symm, h.2.2.symm⟩
  · simp [converse] at h

theorem converse_receiveEach {x : KeyExchange} {limit n : Nat} {offers : List Descriptor}
    (h : (receiveEach x limit n).converse heard = some (offers, sent, rest)) : sent = [] := by
  induction n generalizing heard sent rest offers with
  | zero =>
    simp only [receiveEach, converse, Option.some.injEq, Prod.mk.injEq] at h
    exact h.2.1.symm
  | succ n ih =>
    rw [receiveEach] at h
    obtain ⟨_, _, _, _, hfield, hopen, rfl⟩ := converse_bind_eq_some h
    obtain ⟨_, _, _, _, hplain, hdecode, rfl⟩ := converse_bind_eq_some hopen
    obtain ⟨_, _, _, _, hoffer, hnext, rfl⟩ := converse_bind_eq_some hdecode
    obtain ⟨_, _, _, _, hothers, hdone, rfl⟩ := converse_bind_eq_some hnext
    simp only [pure, converse, Option.some.injEq, Prod.mk.injEq] at hdone
    rw [converse_receiveField hfield, (converse_ofCrypto hplain).2.1, (converse_decode hoffer).2.1,
      ih hothers, ← hdone.2.1]
    rfl

theorem converse_receiveOffers {x : KeyExchange} {limit : Nat} {offers : List Descriptor}
    (h : (receiveOffers x limit).converse heard = some (offers, sent, rest)) : sent = [] := by
  obtain ⟨_, _, _, _, hnumber, heach, rfl⟩ := converse_bind_eq_some h
  obtain ⟨rfl, -⟩ := converse_receiveNumber hnumber
  rw [converse_receiveEach heach, List.append_nil]

theorem converse_select {α : Type} [Algorithm α] {stage : Stage} {container : Container α}
    {x : KeyExchange} {limit : Nat} {noise : Noise} {a : α}
    (h : (select stage container x limit noise).converse heard = some (a, sent, rest)) :
    ∃ theirs, (sendOffers x noise container.supported).converse heard = some ((), sent, heard) ∧
      (receiveOffers x limit).converse heard = some (theirs, [], rest) ∧
      container.selectStrongest theirs = some a := by
  obtain ⟨_, _, _, _, hsend, hreceive, rfl⟩ := converse_bind_eq_some h
  obtain rfl := converse_sendOffers hsend
  obtain ⟨theirs, _, _, _, hoffers, hselect, rfl⟩ := converse_bind_eq_some hreceive
  obtain rfl := converse_receiveOffers hoffers
  split at hselect
  · next hchosen =>
    simp only [pure, converse, Option.some.injEq, Prod.mk.injEq] at hselect
    obtain ⟨rfl, rfl, rfl⟩ := hselect
    refine ⟨theirs, ?_, hoffers, hchosen⟩
    simpa only [List.append_nil] using hsend
  · simp [converse] at hselect

theorem converse_obtainKeys {p : Party} {a : KeyExchangeAlgorithm} {noise : Noise}
    {x : KeyExchange} (h : (obtainKeys p a noise).converse heard = some (x, sent, rest)) :
    (∃ files, (KeyExchange.start a p.config.keyLifetime).generateKeys p.files noise =
      (.ok (), x, files)) ∧ sent = [] ∧ rest = heard := by
  rcases hkeys : (KeyExchange.start a p.config.keyLifetime).generateKeys p.files noise with
    ⟨outcome, keyed, files⟩
  simp only [obtainKeys, hkeys, converse] at h
  obtain ⟨hx, hsent, hrest⟩ := converse_ofCrypto h
  cases outcome with
  | error cause => simp [Except.map] at hx
  | ok u =>
    rw [Except.map, Except.ok.injEq] at hx
    exact ⟨⟨files, by rw [hx]⟩, hsent, hrest⟩

theorem converse_exchangeKeys {p : Party} {a : KeyExchangeAlgorithm} {noise : Noise}
    {x : KeyExchange} (h : (exchangeKeys p a noise).converse heard = some (x, sent, rest)) :
    ∃ keyed files own theirs,
      (KeyExchange.start a p.config.keyLifetime).generateKeys p.files noise =
        (.ok (), keyed, files) ∧
      keyed.publicKey = .ok own ∧ (sendField own).converse heard = some ((), sent, heard) ∧
      (receiveField p.config.maxField).converse heard = some (theirs, [], rest) ∧
      keyed.setPublicKey theirs = .ok x := by
  obtain ⟨keyed, _, _, _, hobtain, hpublish, rfl⟩ := converse_bind_eq_some h
  obtain ⟨⟨files, hkeys⟩, rfl, rfl⟩ := converse_obtainKeys hobtain
  obtain ⟨own, _, _, _, htext, hexchange, rfl⟩ := converse_bind_eq_some hpublish
  obtain ⟨hown, rfl, rfl⟩ := converse_ofCrypto htext
  obtain ⟨_, _, _, _, hsend, hreceive, rfl⟩ := converse_bind_eq_some hexchange
  obtain ⟨-, -, rfl⟩ := converse_sendField hsend
  obtain ⟨theirs, _, _, _, hfield, haccept, rfl⟩ := converse_bind_eq_some hreceive
  obtain rfl := converse_receiveField hfield
  obtain ⟨hset, rfl, rfl⟩ := converse_ofCrypto haccept
  refine ⟨keyed, files, own, theirs, hkeys, hown, ?_, hfield, hset⟩
  simpa only [List.nil_append, List.append_nil] using hsend

theorem converse_exchangePackages {x : KeyExchange} {own theirs : KeyPackage} {limit : Nat}
    {noise : Noise}
    (h : (exchangePackages x own limit noise).converse heard = some (theirs, sent, rest)) :
    ∃ record field plain, x.encrypt noise (Recorded.encode own) = .ok record ∧
      (sendField record).converse heard = some ((), sent, heard) ∧
      (receiveField limit).converse heard = some (field, [], rest) ∧
      x.decrypt field = .ok plain ∧ Recorded.decode plain = .ok theirs := by
  obtain ⟨record, _, _, _, hencrypt, hexchange, rfl⟩ := converse_bind_eq_some h
  obtain ⟨hrecord, rfl, rfl⟩ := converse_ofCrypto hencrypt
  obtain ⟨_, _, _, _, hsend, hreceive, rfl⟩ := converse_bind_eq_some hexchange
  obtain ⟨-, -, rfl⟩ := converse_sendField hsend
  obtain ⟨field, _, _, _, hfield, hopen, rfl⟩ := converse_bind_eq_some hreceive
  obtain rfl := converse_receiveField hfield
  obtain ⟨plain, _, _, _, hdecrypt, hdecode, rfl⟩ := converse_bind_eq_some hopen
  obtain ⟨hplain, rfl, rfl⟩ := converse_ofCrypto hdecrypt
  obtain ⟨hpackage, rfl, rfl⟩ := converse_decode hdecode
  refine ⟨record, field, plain, hrecord, ?_, hfield, hplain, hpackage⟩
  simpa only [List.nil_append, List.append_nil] using hsend

/-- What happened in the stages of a successful handshake: what was selected and
exchanged, what each stage sent, and what it left of the bytes that were heard. -/
structure Course (p : Party) (heard : Bytes) where
  keyExchange : KeyExchangeAlgorithm
  keyExchangeOffers : List Descriptor
  ownKeys : KeyExchange
  ownText : Bytes
  theirText : Bytes
  keys : KeyExchange
  symmetric : SymmetricAlgorithm
  symmetricOffers : List Descriptor
  record : Bytes
  theirRecord : Bytes
  theirPlain : Bytes
  package : KeyPackage
  sentKeyExchange : Bytes
  sentText : Bytes
  sentSymmetric : Bytes
  sentRecord : Bytes
  afterKeyExchange : Bytes
  afterText : Bytes
  afterSymmetric : Bytes
  rest : Bytes
  offerKeyExchange : (sendOffers .identity p.noise.even.odd p.config.keyExchange.supported).converse
    heard = some ((), sentKeyExchange, heard)
  hearKeyExchange : (receiveOffers .identity p.config.maxField).converse heard =
    some (keyExchangeOffers, [], afterKeyExchange)
  selectKeyExchange : p.config.keyExchange.selectStrongest keyExchangeOffers = some keyExchange
  obtainKeys : ∃ files, (KeyExchange.start keyExchange p.config.keyLifetime).generateKeys p.files
    p.noise.even.even = (.ok (), ownKeys, files)
  publishKey : ownKeys.publicKey = .ok ownText
  sendText : (sendField ownText).converse afterKeyExchange = some ((), sentText, afterKeyExchange)
  hearText : (receiveField p.config.maxField).converse afterKeyExchange =
    some (theirText, [], afterText)
  acceptKey : ownKeys.setPublicKey theirText = .ok keys
  offerSymmetric : (sendOffers keys p.noise.even.odd p.config.symmetric.supported).converse
    afterText = some ((), sentSymmetric, afterText)
  hearSymmetric : (receiveOffers keys p.config.maxField).converse afterText =
    some (symmetricOffers, [], afterSymmetric)
  selectSymmetric : p.config.symmetric.selectStrongest symmetricOffers = some symmetric
  encryptPackage : keys.encrypt p.noise.odd.odd
    (Recorded.encode (symmetric.drawPackage p.noise.odd.even)) = .ok record
  sendRecord : (sendField record).converse afterSymmetric = some ((), sentRecord, afterSymmetric)
  hearRecord : (receiveField p.config.maxField).converse afterSymmetric =
    some (theirRecord, [], rest)
  decryptPackage : keys.decrypt theirRecord = .ok theirPlain
  decodePackage : Recorded.decode theirPlain = .ok package

namespace Course

variable {p : Party}

def spoken (c : Course p heard) : Bytes :=
  c.sentKeyExchange ++ (c.sentText ++ (c.sentSymmetric ++ c.sentRecord))

structure EndsIn (c : Course p heard) (link : Link) : Prop where
  keyExchange : link.keyExchange = c.keyExchange.descriptor
  symmetric : link.symmetric = c.symmetric.descriptor
  block : Frame.blockBytes? c.symmetric.blockBits.toNat = some link.block
  encryptor : c.symmetric.encryptor (c.symmetric.drawPackage p.noise.odd.even) = .ok link.encryptor
  decryptor : c.symmetric.decryptor c.package = .ok link.decryptor

end Course

theorem converse_enter {phase : Phase} {u : Unit}
    (h : (Dialogue.enter phase (.done ())).converse heard = some (u, sent, rest)) :
    sent = [] ∧ rest = heard := by
  simp only [converse, Option.some.injEq, Prod.mk.injEq] at h
  exact ⟨h.2.1.symm, h.2.2.symm⟩

theorem converse_blockBytes {a : SymmetricAlgorithm} {block : Nat}
    (h : (blockBytes a).converse heard = some (block, sent, rest)) :
    Frame.blockBytes? a.blockBits.toNat = some block ∧ sent = [] ∧ rest = heard := by
  rw [blockBytes] at h
  split at h
  · next hblock =>
    simp only [converse, Option.some.injEq, Prod.mk.injEq] at h
    exact ⟨by rw [hblock, h.1], h.2.1.symm, h.2.2.symm⟩
  · simp [converse] at h

theorem converse_dialogue {p : Party} {link : Link}
    (h : (dialogue p).converse heard = some (link, sent, rest)) :
    ∃ c : Course p heard, c.EndsIn link ∧ sent = c.spoken ∧ rest = c.rest := by
  obtain ⟨a, _, _, _, hselect, hentered, rfl⟩ := converse_bind_eq_some h
  obtain ⟨theirs, hoffer, hhear, hchosen⟩ := converse_select hselect
  obtain ⟨_, _, _, _, hphase, hkeys, rfl⟩ := converse_bind_eq_some hentered
  obtain ⟨rfl, rfl⟩ := converse_enter hphase
  obtain ⟨x, _, _, _, hexchange, hsecond, rfl⟩ := converse_bind_eq_some hkeys
  obtain ⟨own, files, text, theirText, hown, hpublish, hsendText, hhearText, haccept⟩ :=
    converse_exchangeKeys hexchange
  obtain ⟨s, _, _, _, hselect', hentered', rfl⟩ := converse_bind_eq_some hsecond
  obtain ⟨theirs', hoffer', hhear', hchosen'⟩ := converse_select hselect'
  obtain ⟨_, _, _, _, hphase', hsize, rfl⟩ := converse_bind_eq_some hentered'
  obtain ⟨rfl, rfl⟩ := converse_enter hphase'
  obtain ⟨block, _, _, _, hbytes, hpackages, rfl⟩ := converse_bind_eq_some hsize
  obtain ⟨hblock, rfl, rfl⟩ := converse_blockBytes hbytes
  obtain ⟨package, _, _, _, hpackage, hready, rfl⟩ := converse_bind_eq_some hpackages
  obtain ⟨record, field, plain, hrecord, hsendRecord, hhearRecord, hplain, hdecode⟩ :=
    converse_exchangePackages hpackage
  obtain ⟨_, _, _, _, hphase'', htransforms, rfl⟩ := converse_bind_eq_some hready
  obtain ⟨rfl, rfl⟩ := converse_enter hphase''
  obtain ⟨encryptor, _, _, _, houtbound, hinbound, rfl⟩ := converse_bind_eq_some htransforms
  obtain ⟨hencryptor, rfl, rfl⟩ := converse_ofCrypto houtbound
  obtain ⟨decryptor, _, _, _, hkeyed, hdone, rfl⟩ := converse_bind_eq_some hinbound
  obtain ⟨hdecryptor, rfl, rfl⟩ := converse_ofCrypto hkeyed
  simp only [converse, Option.some.injEq, Prod.mk.injEq] at hdone
  obtain ⟨rfl, rfl, rfl⟩ := hdone
  exact ⟨{
    keyExchange := a
    keyExchangeOffers := theirs
    ownKeys := own
    ownText := text
    theirText := theirText
    keys := x
    symmetric := s
    symmetricOffers := theirs'
    record := record
    theirRecord := field
    theirPlain := plain
    package := package
    sentKeyExchange := _
    sentText := _
    sentSymmetric := _
    sentRecord := _
    afterKeyExchange := _
    afterText := _
    afterSymmetric := _
    rest := _
    offerKeyExchange := hoffer
    hearKeyExchange := hhear
    selectKeyExchange := hchosen
    obtainKeys := ⟨files, hown⟩
    publishKey := hpublish
    sendText := hsendText
    hearText := hhearText
    acceptKey := haccept
    offerSymmetric := hoffer'
    hearSymmetric := hhear'
    selectSymmetric := hchosen'
    encryptPackage := hrecord
    sendRecord := hsendRecord
    hearRecord := hhearRecord
    decryptPackage := hplain
    decodePackage := hdecode },
    ⟨rfl, rfl, hblock, hencryptor, hdecryptor⟩, by simp [Course.spoken], rfl⟩

end CipherLink.Handshake
