import CipherLink.Handshake.Meeting
import CipherLink.Proofs.Handshake.Transmission
import CipherLink.Proofs.KeyFiles
import CipherLink.Proofs.Pairs
import CipherLink.Proofs.Rsa.Inversion
import CipherLink.Proofs.Rsa.KeyText
import CipherLink.Proofs.Traffic
import Mathlib.NumberTheory.LucasLehmer

/-!
# Agreement of the two sides

Each stage of a side hears what the same stage of the other side has sent. So the
two select the same key exchange from each other's offers, end up with keys that
open what the other side encrypts, select the same symmetric algorithm, and each
has the package that the other one drew.
-/

namespace CipherLink

namespace RsaExchange

theorem setPublicKey_toText (x : RsaExchange) (key : Rsa.PublicKey) :
    x.setPublicKey key.toText = .ok { x with peerKey := some key } := by
  obtain ⟨s, hs⟩ : ∃ s, key.toText.utf8? = some s := Pem.utf8?_encode _ _
  simp only [setPublicKey, hs, key.ofText?_toText]

theorem keyPair_of_setPublicKey {x y : RsaExchange} {text : Bytes}
    (h : x.setPublicKey text = .ok y) : y.keyPair = x.keyPair := by
  rw [setPublicKey] at h
  split at h
  · simp at h
  · split at h
    · obtain rfl := Except.ok.inj h
      rfl
    · simp at h

end RsaExchange

namespace KeyExchange

variable {lifetime lifetime' : KeyLifetime} {files files' filled filled' : KeyFiles}
  {noise noise' : Noise} {own own' keys keys' : KeyExchange}

theorem generateKeys_rsa {size : UInt32}
    (h : (start (.rsa size) lifetime).generateKeys files noise = (.ok (), own, filled)) :
    ∃ key, Rsa.obtain size.toNat lifetime files noise = (.ok key, filled) ∧
      own = .rsa ⟨size.toNat, lifetime, some key, none⟩ := by
  rcases hobtain : Rsa.obtain size.toNat lifetime files noise with ⟨_ | key, left⟩
  · simp [start, generateKeys, RsaExchange.renew, hobtain] at h
  · simp only [start, generateKeys, RsaExchange.renew, hobtain, Prod.mk.injEq, true_and] at h
    obtain ⟨rfl, rfl⟩ := h
    exact ⟨key, rfl, rfl⟩

theorem setPublicKey_rsa {x : RsaExchange} {text : Bytes}
    (h : (KeyExchange.rsa x).setPublicKey text = .ok keys) :
    ∃ y, x.setPublicKey text = .ok y ∧ keys = .rsa y := by
  cases hset : x.setPublicKey text with
  | error cause => simp [setPublicKey, hset, Except.map] at h
  | ok y =>
    simp only [setPublicKey, hset, Except.map, Except.ok.injEq] at h
    exact ⟨y, rfl, h.symm⟩

theorem opens_of_exchange {a : KeyExchangeAlgorithm} {text theirText : Bytes}
    (hown : (start a lifetime).generateKeys files noise = (.ok (), own, filled))
    (hown' : (start a lifetime').generateKeys files' noise' = (.ok (), own', filled'))
    (hpublish : own.publicKey = .ok text) (haccept : own.setPublicKey theirText = .ok keys)
    (haccept' : own'.setPublicKey text = .ok keys')
    (hinverts : ∀ size key, a = .rsa size →
      Rsa.obtain size.toNat lifetime files noise = (.ok key, filled) → key.Inverts) :
    keys.Opens keys' := by
  intro drawn bs cs hencrypt
  cases a with
  | identity =>
    simp only [start, generateKeys, Prod.mk.injEq, true_and] at hown hown'
    obtain ⟨rfl, rfl⟩ := hown
    obtain ⟨rfl, rfl⟩ := hown'
    obtain rfl := Except.ok.inj haccept
    obtain rfl := Except.ok.inj haccept'
    exact hencrypt.symm
  | rsa size =>
    obtain ⟨key, hobtain, rfl⟩ := generateKeys_rsa hown
    obtain ⟨_, -, rfl⟩ := generateKeys_rsa hown'
    obtain ⟨x, hx, rfl⟩ := setPublicKey_rsa haccept
    obtain ⟨y, hy, rfl⟩ := setPublicKey_rsa haccept'
    -- The text that was sent is that of the key pair kept for decryption.
    obtain rfl := Except.ok.inj hpublish
    rw [RsaExchange.setPublicKey_toText, Except.ok.injEq] at hy
    subst hy
    have hpair := RsaExchange.keyPair_of_setPublicKey hx
    simp only [encrypt, RsaExchange.encrypt] at hencrypt
    simp only [decrypt, RsaExchange.decrypt, hpair]
    exact Rsa.decrypt_encrypt (hinverts size key rfl hobtain) hencrypt

end KeyExchange

namespace Handshake

/-- Whether every key pair that a party may obtain for an algorithm that it offers
undoes its own encryption. -/
def KeysInvert (p : Party) : Prop :=
  ∀ size, KeyExchangeAlgorithm.rsa size ∈ p.config.keyExchange.algorithms → ∀ key files,
    Rsa.obtain size.toNat p.config.keyLifetime p.files p.noise.even.even = (.ok key, files) →
      key.Inverts

namespace Course

variable {p p' : Party} {heard heard' : Bytes} {c : Course p heard} {c' : Course p' heard'}

theorem hears_keyExchange (h : heard = c'.spoken) :
    c.keyExchangeOffers = p'.config.keyExchange.supported ∧
      c.afterKeyExchange = c'.sentText ++ (c'.sentSymmetric ++ c'.sentRecord) := by
  subst h
  have hopens : KeyExchange.identity.Opens .identity := fun _ _ _ hencrypt => hencrypt.symm
  exact receiveOffers_sendOffers hopens
    (Container.writable_of_mem_supported KeyExchangeAlgorithm.writable) c'.offerKeyExchange
    c.hearKeyExchange

theorem hears_text (h : heard = c'.spoken) :
    c.theirText = c'.ownText ∧ c.afterText = c'.sentSymmetric ++ c'.sentRecord := by
  have hhear := c.hearText
  rw [(hears_keyExchange h).2] at hhear
  exact receiveField_sendField c'.sendText hhear

theorem hears_symmetric (h : heard = c'.spoken) (hopens : c.keys.Opens c'.keys) :
    c.symmetricOffers = p'.config.symmetric.supported ∧ c.afterSymmetric = c'.sentRecord := by
  have hhear := c.hearSymmetric
  rw [(hears_text h).2] at hhear
  exact receiveOffers_sendOffers hopens
    (Container.writable_of_mem_supported SymmetricAlgorithm.writable) c'.offerSymmetric hhear

theorem hears_package (h : heard = c'.spoken) (hopens : c.keys.Opens c'.keys) :
    c.package = c'.symmetric.drawPackage p'.noise.odd.even := by
  have hhear := c.hearRecord
  rw [(hears_symmetric h hopens).2, ← List.append_nil c'.sentRecord] at hhear
  have hrecord := (receiveField_sendField c'.sendRecord hhear).1
  have hplain := c.decryptPackage
  rw [hrecord, hopens _ _ _ c'.encryptPackage, Except.ok.injEq] at hplain
  have hpackage := c.decodePackage
  rw [← hplain, ← List.append_nil (Recorded.encode _), Recorded.decode_encode
    (c'.symmetric.writable_drawPackage _), Except.ok.injEq] at hpackage
  exact hpackage.symm

theorem keyExchange_eq (h : heard = c'.spoken) (h' : heard' = c.spoken) :
    c.keyExchange = c'.keyExchange := by
  have hours := c.selectKeyExchange
  have htheirs := c'.selectKeyExchange
  rw [(hears_keyExchange h).1] at hours
  rw [(hears_keyExchange h').1] at htheirs
  exact KeyExchangeAlgorithm.eq_of_isMatch (Container.isMatch_of_selectStrongest hours htheirs)

theorem opens (h : heard = c'.spoken) (h' : heard' = c.spoken) (hp : KeysInvert p) :
    c.keys.Opens c'.keys := by
  obtain ⟨filled, hown⟩ := c.obtainKeys
  obtain ⟨filled', hown'⟩ := c'.obtainKeys
  rw [← keyExchange_eq h h'] at hown'
  have haccept := c'.acceptKey
  rw [(hears_text h').1] at haccept
  refine KeyExchange.opens_of_exchange hown hown' c.publishKey c.acceptKey haccept ?_
  intro size key hsize hobtain
  have hmem := (Container.strongest_of_selectStrongest c.selectKeyExchange).mem
  rw [hsize] at hmem
  exact hp size hmem key filled hobtain

theorem symmetric_eq (h : heard = c'.spoken) (h' : heard' = c.spoken) (hp : KeysInvert p)
    (hp' : KeysInvert p') : c.symmetric = c'.symmetric := by
  have hours := c.selectSymmetric
  have htheirs := c'.selectSymmetric
  rw [(hears_symmetric h (opens h h' hp)).1] at hours
  rw [(hears_symmetric h' (opens h' h hp')).1] at htheirs
  exact SymmetricAlgorithm.eq_of_isMatch (Container.isMatch_of_selectStrongest hours htheirs)

/-- What a side encrypts under the package that it drew, the other side decrypts
under that package, which it has heard. -/
theorem EndsIn.transforms {link link' : Link} (hends : c.EndsIn link) (hends' : c'.EndsIn link')
    (h : heard = c'.spoken) (h' : heard' = c.spoken) (hp : KeysInvert p) (hp' : KeysInvert p') :
    c.symmetric.encryptor (c.symmetric.drawPackage p.noise.odd.even) = .ok link.encryptor ∧
      c.symmetric.decryptor (c.symmetric.drawPackage p.noise.odd.even) = .ok link'.decryptor := by
  have hdecryptor := hends'.decryptor
  rw [hears_package h' (opens h' h hp'), ← symmetric_eq h h' hp hp'] at hdecryptor
  exact ⟨hends.encryptor, hdecryptor⟩

end Course

/-- Whenever both sides of a handshake succeed, whatever the order of their steps,
they agree on what they have selected, and each encrypts under the package that
the other one decrypts with. Whole blocks that either of them sends from then on,
at whatever time, come out as they were sent and in order. -/
theorem encounter_agree {left right : Party} (hleft : KeysInvert left) (hright : KeysInvert right)
    (schedule : List Turn) {l r : Link}
    (hl : ((encounter left right).follow schedule).left.result? = some (.ok l))
    (hr : ((encounter left right).follow schedule).right.result? = some (.ok r)) :
    l.keyExchange = r.keyExchange ∧ l.symmetric = r.symmetric ∧ l.block = r.block ∧
      (∃ (a : SymmetricAlgorithm) (leftPackage rightPackage : KeyPackage),
        l.symmetric = a.descriptor ∧
        a.encryptor leftPackage = .ok l.encryptor ∧ a.decryptor leftPackage = .ok r.decryptor ∧
        a.encryptor rightPackage = .ok r.encryptor ∧ a.decryptor rightPackage = .ok l.decryptor) ∧
      ∀ activities : List Activity,
        (∀ side buffer, .send side buffer ∈ activities → Cipher.blockLength ∣ buffer.length) →
        ∃ t, (Traffic.between l r).run activities = .ok t ∧ ∀ side, ∃ awaited,
          Activity.sentBy activities side = (t.direction side).arrived ++ awaited ∧
          awaited.length = (t.direction side).underway.length := by
  obtain ⟨sentLeft, sentRight, restLeft, restRight, hconverse, hconverse'⟩ :=
    Pair.converse_of_follow rfl hl hr
  obtain ⟨c, hends, hspoken, -⟩ := converse_dialogue hconverse
  obtain ⟨c', hends', hspoken', -⟩ := converse_dialogue hconverse'
  have hkeyExchange := Course.keyExchange_eq hspoken' hspoken
  have hsymmetric := Course.symmetric_eq hspoken' hspoken hleft hright
  obtain ⟨hencryptor, hdecryptor⟩ := hends.transforms hends' hspoken' hspoken hleft hright
  obtain ⟨hencryptor', hdecryptor'⟩ := hends'.transforms hends hspoken hspoken' hright hleft
  rw [← hsymmetric] at hencryptor' hdecryptor'
  have hblock := hends.block
  rw [hsymmetric, hends'.block, Option.some.injEq] at hblock
  refine ⟨?_, ?_, hblock.symm, ?_, ?_⟩
  · rw [hends.keyExchange, hends'.keyExchange, hkeyExchange]
  · rw [hends.symmetric, hends'.symmetric, hsymmetric]
  · exact ⟨c.symmetric, _, _, hends.symmetric, hencryptor, hdecryptor, hencryptor', hdecryptor'⟩
  · intro activities hwhole
    have hpeer := SymmetricAlgorithm.peer_eq hencryptor hdecryptor
    have hpeer' := SymmetricAlgorithm.peer_eq hencryptor' hdecryptor'
    obtain ⟨t, hrun, hfaithful⟩ :=
      Traffic.faithful_run (Traffic.faithful_between hpeer hpeer') hwhole
    refine ⟨t, hrun, ?_⟩
    intro side
    obtain ⟨awaited, hsent, hyields⟩ := hfaithful side
    exact ⟨awaited, hsent, hyields.length.symm⟩

theorem keysInvert_of_persisted {p : Party} {path : String} {key : Rsa.PrivateKey}
    (hlifetime : p.config.keyLifetime = .persisted path)
    (hfile : p.files.read? path = some key.toText) (hexponent : key.exponent.log2 < 2 ^ 32)
    (h : key.Inverts) : KeysInvert p := by
  intro size _ found files hobtain
  rw [hlifetime, KeyFiles.obtain_of_read? hfile, Rsa.load_toText hexponent] at hobtain
  obtain ⟨hload, -⟩ := Prod.mk.inj hobtain
  split at hload
  · obtain rfl := Except.ok.inj hload
    exact h
  · simp at hload

/-- The key pair of two primes that are one below a power of two. -/
def firstKey : Rsa.PrivateKey where
  publicKey := ⟨(2 ^ 89 - 1) * (2 ^ 61 - 1), 65537, by decide +kernel⟩
  exponent := 740443132154395775117746638826656402702473
  p := 2 ^ 89 - 1
  q := 2 ^ 61 - 1
  undoes := by decide +kernel

def secondKey : Rsa.PrivateKey where
  publicKey := ⟨(2 ^ 127 - 1) * (2 ^ 19 - 1), 65537, by decide +kernel⟩
  exponent := 47574650866035865161699168527745535441707557
  p := 2 ^ 127 - 1
  q := 2 ^ 19 - 1
  undoes := by decide +kernel

def keeper (key : Rsa.PrivateKey) (symmetric : List SymmetricAlgorithm) (noise : Noise) : Party where
  config := { LinkConfig.ofAlgorithms [.identity, .rsa 152] symmetric with
    keyLifetime := .persisted "key.pem" }
  files := KeyFiles.empty.write "key.pem" key.toText
  noise := noise

theorem keysInvert_keeper {key : Rsa.PrivateKey} (hexponent : key.exponent.log2 < 2 ^ 32)
    (h : key.Inverts) (symmetric : List SymmetricAlgorithm) (noise : Noise) :
    KeysInvert (keeper key symmetric noise) := by
  have hcreate : KeyFiles.empty.mayCreate "key.pem" = true := by decide
  exact keysInvert_of_persisted rfl (KeyFiles.read?_write hcreate) hexponent h

theorem firstKey_inverts : firstKey.Inverts :=
  Rsa.PrivateKey.inverts_of_prime (lucas_lehmer_sufficiency 89 (by decide) (by norm_num))
    (lucas_lehmer_sufficiency 61 (by decide) (by norm_num)) (by decide)

theorem secondKey_inverts : secondKey.Inverts :=
  Rsa.PrivateKey.inverts_of_prime (lucas_lehmer_sufficiency 127 (by decide) (by norm_num))
    (lucas_lehmer_sufficiency 19 (by decide) (by norm_num)) (by decide)

def firstParty : Party := keeper firstKey [.identity, .aes 128] fun _ => 7

def secondParty : Party := keeper secondKey [.aes 128, .aes 256] fun i => UInt8.ofNat i

def agreed : Agreement :=
  ⟨(KeyExchangeAlgorithm.rsa 152).descriptor, (SymmetricAlgorithm.aes 128).descriptor, 16⟩

def agreement? (s : Side Link) : Option Agreement :=
  (s.result?.bind Except.toOption).map Link.toAgreement

theorem exists_of_agreement? {s : Side Link} {agreement : Agreement}
    (h : agreement? s = some agreement) :
    ∃ link, s.result? = some (.ok link) ∧ link.toAgreement = agreement := by
  obtain ⟨link, hlink, hagreement⟩ := Option.map_eq_some_iff.mp h
  obtain ⟨result, hresult, hok⟩ := Option.bind_eq_some_iff.mp hlink
  exact ⟨link, by rw [hresult, eq_ok_of_toOption hok], hagreement⟩

theorem encounter_agree_at :
    KeysInvert firstParty ∧ KeysInvert secondParty ∧ ∃ l r : Link,
      (meet firstParty secondParty).left.result? = some (.ok l) ∧
      (meet firstParty secondParty).right.result? = some (.ok r) ∧
      l.toAgreement = agreed ∧ l.keyExchange = r.keyExchange ∧ l.symmetric = r.symmetric ∧
      ∃ t, (Traffic.between l r).run [.send .left (List.replicate 32 1),
          .send .right (List.replicate 16 2), .receive .right, .send .left []] = .ok t ∧
        ∀ side, ∃ awaited, Activity.sentBy [.send .left (List.replicate 32 1),
          .send .right (List.replicate 16 2), .receive .right, .send .left []] side =
            (t.direction side).arrived ++ awaited ∧
          awaited.length = (t.direction side).underway.length := by
  have hmeet : agreement? (meet firstParty secondParty).left = some agreed ∧
      agreement? (meet firstParty secondParty).right = some agreed := by
    decide +kernel
  have hfirst : KeysInvert firstParty := keysInvert_keeper (by decide) firstKey_inverts _ _
  have hsecond : KeysInvert secondParty := keysInvert_keeper (by decide) secondKey_inverts _ _
  obtain ⟨l, hl, hagreed⟩ := exists_of_agreement? hmeet.1
  obtain ⟨r, hr, -⟩ := exists_of_agreement? hmeet.2
  obtain ⟨hkeyExchange, hsymmetric, -, -, htraffic⟩ := encounter_agree hfirst hsecond _ hl hr
  refine ⟨hfirst, hsecond, l, r, hl, hr, hagreed, hkeyExchange, hsymmetric, htraffic _ ?_⟩
  intro side buffer hmem
  simp only [List.mem_cons, Activity.send.injEq, reduceCtorEq, List.not_mem_nil, or_false,
    false_or] at hmem
  rcases hmem with ⟨-, rfl⟩ | ⟨-, rfl⟩ | ⟨-, rfl⟩ <;> decide

end Handshake

end CipherLink
