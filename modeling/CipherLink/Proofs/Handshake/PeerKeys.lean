import CipherLink.Proofs.Handshake.Disclosure
import CipherLink.Proofs.PersistedKeys

/-!
# The key of the other side

A handshake imports whatever public key the other side presents and encrypts under it from
then on. It asks nothing of the key but that a block leaves room for data: the size that
both sides selected binds the key pairs that they obtain, and so the imported keys only of
those that run the handshake as well.
-/

namespace CipherLink

theorem Rsa.PublicKey.bitLength_of_encrypt {key : PublicKey} {noise : Noise} {bs cs : Bytes}
    (h : key.encrypt noise bs = .ok cs) : 88 < bitLength key.modulus := by
  rw [encrypt] at h
  split at h
  · simp at h
  · next hroom =>
    simp only [chunkLength, blockLength, paddingOverhead] at hroom
    omega

namespace Handshake

open Dialogue

variable {p q : Party} {n : UInt32} {key : Rsa.PublicKey}

/-- Whether a side has imported this key of the other side, and encrypts under it the
symmetric algorithms and the package that it sends. -/
structure Course.Toward {heard : Bytes} (c : Course p heard) (key : Rsa.PublicKey) : Prop where
  imported : Rsa.PublicKey.ofText? c.theirText = some key
  encrypts : ∀ noise bs, c.keys.encrypt noise bs = key.encrypt noise bs

namespace Course

variable {heard heard' : Bytes} {c : Course p heard} {c' : Course q heard'}

theorem EndsIn.keyExchange_eq {link : Link} {a : KeyExchangeAlgorithm} (h : c.EndsIn link)
    (ha : link.keyExchange = a.descriptor) : c.keyExchange = a := by
  refine KeyExchangeAlgorithm.eq_of_isMatch (Descriptor.isMatch_iff.mpr ?_)
  rw [← h.keyExchange, ha]
  exact ⟨rfl, rfl, rfl⟩

theorem exists_toward (h : c.keyExchange = .rsa n) : ∃ key, c.Toward key := by
  obtain ⟨files, hown⟩ := c.obtainKeys
  rw [h] at hown
  obtain ⟨key, himported, hencrypts⟩ := KeyExchange.encrypt_of_accepted hown c.acceptKey
  exact ⟨key, himported, hencrypts⟩

theorem Toward.bitLength (h : c.Toward key) :
    88 < Rsa.bitLength key.modulus ∧ Rsa.bitLength key.modulus ≤ 4096 := by
  have hpackage := c.encryptPackage
  rw [h.encrypts] at hpackage
  exact ⟨Rsa.PublicKey.bitLength_of_encrypt hpackage, key.supported.1⟩

theorem Toward.exists_obtain (h : c.Toward key) (hheard : heard = c'.spoken)
    (hrsa : c'.keyExchange = .rsa n) : ∃ pair files,
      Rsa.obtain n.toNat q.config.keyLifetime q.files q.noise.even.even = (.ok pair, files) ∧
        pair.publicKey = key := by
  obtain ⟨files, hown⟩ := c'.obtainKeys
  rw [hrsa] at hown
  obtain ⟨pair, hobtain, hkeys⟩ := KeyExchange.generateKeys_rsa hown
  refine ⟨pair, files, hobtain, ?_⟩
  have htext : pair.publicKey.toText = c'.ownText := by
    have hpublish := c'.publishKey
    rw [hkeys] at hpublish
    exact Except.ok.inj hpublish
  have himported := h.imported
  rw [(hears_text hheard).1, ← htext, Rsa.PublicKey.ofText?_toText] at himported
  exact Option.some.inj himported

end Course

theorem keyExchange_of_follow {schedule : List Turn} {l r : Link}
    (hl : ((encounter p q).follow schedule).left.result? = some (.ok l))
    (hr : ((encounter p q).follow schedule).right.result? = some (.ok r)) :
    ∃ a, keyExchangeWith p q = some a ∧ l.keyExchange = a.descriptor := by
  obtain ⟨_, _, _, _, hconverse, hconverse'⟩ := Pair.converse_of_follow rfl hl hr
  obtain ⟨c, hends, -, -⟩ := converse_dialogue hconverse
  obtain ⟨c', -, hspoken', -⟩ := converse_dialogue hconverse'
  refine ⟨c.keyExchange, ?_, hends.keyExchange⟩
  rw [keyExchangeWith, ← (Course.hears_keyExchange hspoken').1]
  exact c.selectKeyExchange

def keysUnder (p : Party) (n : UInt32) (key : Rsa.PublicKey) : KeyExchange :=
  .rsa ⟨n.toNat, p.config.keyLifetime, keyPair? p (.rsa n), some key⟩

theorem HasKeys.opens_keysUnder (h : HasKeys p (.rsa n)) :
    (keysUnder p n key).Opens (keysToward q p (.rsa n)) := by
  -- What the key pair opens does not depend on the key of the other side.
  intro noise bs cs hencrypt
  exact h.opens (p := q) noise bs cs hencrypt

theorem exists_encrypt_keysUnder (hkey : 88 < Rsa.bitLength key.modulus) (noise : Noise)
    (bs : Bytes) : ∃ cs, (keysUnder p n key).encrypt noise bs = .ok cs := by
  have hroom : Rsa.paddingOverhead < key.blockLength := by
    simp only [Rsa.paddingOverhead, Rsa.PublicKey.blockLength]
    omega
  exact Rsa.PublicKey.exists_encrypt hroom noise bs

theorem answers_select {α : Type} [Algorithm α] (stage : Stage) {c : Container α}
    {x : KeyExchange} {limit : Nat} {noise : Noise} {theirs : List Descriptor}
    {heard said : Bytes} {a : α} (hsay : (sendOffers x noise c.supported).Says said ())
    (hhear : (receiveOffers x limit).Hears heard theirs)
    (hselect : c.selectStrongest theirs = some a) :
    (select stage c x limit noise).Answers heard said a := by
  have hsettle : (settle stage (c.selectStrongest theirs)).Answers [] [] a := by
    rw [hselect]
    exact (says_done a).answers
  rw [select_eq, ← List.append_nil heard, ← List.append_nil said]
  exact hsay.before (hhear.before hsettle)

theorem answers_exchangeKeys (h : HasKeys p (.rsa n))
    (htext : (publicText p (.rsa n)).length ≤ Frame.greatestLength)
    (hkey : Fits p.config.maxField key.toText) :
    (exchangeKeys p (.rsa n) p.noise.even.even).Answers (field key.toText)
      (field (publicText p (.rsa n))) (keysUnder p n key) := by
  obtain ⟨files, hobtain⟩ := h.obtainKeys
  have hobtained : (obtainKeys p (.rsa n) p.noise.even.even).Says [] (ownKeys p (.rsa n)) := by
    rw [hobtain]
    exact says_done _
  have haccept : (ownKeys p (.rsa n)).setPublicKey key.toText = .ok (keysUnder p n key) := by
    simp only [ownKeys, KeyExchange.setPublicKey, RsaExchange.setPublicKey_toText]
    rfl
  rw [← List.append_nil (field key.toText), ← List.append_nil (field (publicText p _))]
  refine hobtained.silently ((says_ofCrypto h.publicKey).silently ?_)
  exact (says_sendField htext).before
    ((hears_receiveField hkey).before (says_ofCrypto haccept).answers)

theorem answers_exchangePackages {x : KeyExchange} {own theirs : KeyPackage} {limit : Nat}
    {noise : Noise} {record theirRecord : Bytes}
    (hrecord : x.encrypt noise (Recorded.encode own) = .ok record)
    (hlength : record.length ≤ Frame.greatestLength) (hfits : Fits limit theirRecord)
    (hopen : x.decrypt theirRecord = .ok (Recorded.encode theirs))
    (hwritable : Recorded.Writable theirs) :
    (exchangePackages x own limit noise).Answers (field theirRecord) (field record) theirs := by
  have hdecode : (decode (Recorded.encode theirs) : Dialogue KeyPackage).Says [] theirs := by
    rw [decode_record hwritable]
    exact says_done theirs
  rw [← List.append_nil (field theirRecord), ← List.append_nil (field record)]
  refine (says_ofCrypto hrecord).silently ((says_sendField hlength).before ?_)
  exact (hears_receiveField hfits).before ((says_ofCrypto hopen).silently hdecode.answers)

/-- What a peer says that keeps to the handshake of `q`, but presents a key that need not
be its own. -/
def presented (q p : Party) (n : UInt32) (key : Rsa.PublicKey) (record : Bytes) : Bytes :=
  offerList .identity q.noise.even.odd q.config.keyExchange.supported ++ (field key.toText ++
    (offerList (keysToward q p (.rsa n)) q.noise.even.odd q.config.symmetric.supported ++
      field record))

theorem exists_answers_conclude {x : KeyExchange} {s : SymmetricAlgorithm}
    {a : KeyExchangeAlgorithm} {record theirRecord : Bytes} {noise : Noise} (husable : s.Usable)
    (hrecord : x.encrypt p.noise.odd.odd (Recorded.encode (s.drawPackage p.noise.odd.even)) =
      .ok record)
    (hlength : record.length ≤ Frame.greatestLength) (hfits : Fits p.config.maxField theirRecord)
    (hopen : x.decrypt theirRecord = .ok (Recorded.encode (s.drawPackage noise))) :
    ∃ link, (conclude p a x s).Answers (field theirRecord) (field record) link ∧
      link.keyExchange = a.descriptor := by
  obtain ⟨⟨encryptor, hencryptor⟩, -⟩ := husable.draws p.noise.odd.even
  obtain ⟨-, decryptor, hdecryptor⟩ := husable.draws noise
  refine ⟨⟨⟨a.descriptor, s.descriptor, 16⟩, encryptor, decryptor⟩, ?_, rfl⟩
  have hpackages := answers_exchangePackages hrecord hlength hfits hopen
    (s.writable_drawPackage noise)
  rw [conclude_eq, ← List.append_nil (field theirRecord), ← List.append_nil (field record)]
  refine answers_bind hpackages ?_
  exact (says_ofCrypto hencryptor).silently
    ((says_ofCrypto hdecryptor).silently (says_done _).answers)

theorem says_sendOffers_keysUnder (hkey : 88 < Rsa.bitLength key.modulus)
    {c : Container SymmetricAlgorithm} (hfew : c.size ≤ maxOffers) (noise : Noise) :
    (sendOffers (keysUnder p n key) noise c.supported).Says
      (offerList (keysUnder p n key) noise c.supported) () := by
  have hcount : c.supported.length ≤ Frame.greatestLength := by
    rw [Container.supported, List.length_map]
    exact Nat.le_trans hfew (by decide)
  have hencrypts := length_records_of_encrypt (exists_encrypt_keysUnder (p := p) (n := n) hkey)
  have hfits : ∀ record ∈ records (keysUnder p n key) noise c.supported,
      Fits (64 * 1024) record := by
    intro record hrecord
    have hlength := length_le_of_mem_records hrecord
    exact ⟨Nat.le_trans hlength (by decide), hlength⟩
  exact says_bind (says_sendNumber hcount) (says_sendEach (hencrypts _ _) hfits)

theorem exists_answers_presented {s : SymmetricAlgorithm} {theirRecord : Bytes}
    (hp : Prepared p q) (hq : Prepared q p) (ha : keyExchangeWith p q = some (.rsa n))
    (hs : symmetricWith p q = some s) (hroom : Fits p.config.maxField key.toText)
    (hkey : 88 < Rsa.bitLength key.modulus)
    (htheirs : (keysToward q p (.rsa n)).encrypt q.noise.odd.odd
      (Recorded.encode (s.drawPackage q.noise.odd.even)) = .ok theirRecord) :
    ∃ sent link, (dialogue p).Answers (presented q p n key theirRecord) sent link ∧
      link.keyExchange = (KeyExchangeAlgorithm.rsa n).descriptor := by
  have ha' : keyExchangeWith q p = some (.rsa n) := (keyExchangeWith_comm q p).trans ha
  have hs' : symmetricWith q p = some s := (symmetricWith_comm q p).trans hs
  have hkeys := hp.keys _ ha
  have husable := hp.cipher _ s ha hs
  have hopens : (keysUnder p n key).Opens (keysToward q p (.rsa n)) := hkeys.opens_keysUnder
  obtain ⟨record, hrecord⟩ := exists_encrypt_keysUnder (p := p) (n := n) hkey p.noise.odd.odd
    (Recorded.encode (s.drawPackage p.noise.odd.even))
  have hlength := length_encrypt_record_le (husable.length_encode_le _) hrecord
  have haudible : Audible (keysToward q p (.rsa n)) (keysUnder p n key) q.noise.even.odd
      q.config.symmetric.supported p.config.maxField :=
    { hq.audible_symmetric ha' hkeys with opens := hopens }
  -- The four stages, one behind the other.
  have hselect := answers_select .keyExchange (says_sendOffers hp.audible_keyExchange)
    (hears_receiveOffers hq.audible_keyExchange) ha
  have hexchange := answers_exchangeKeys hkeys (hp.fits (.publicKey ha)).1 hroom
  have hsettle := answers_select .symmetric
    (says_sendOffers_keysUnder hkey hp.fewSymmetric p.noise.even.odd)
    (hears_receiveOffers haudible) hs
  obtain ⟨link, hconclude, hlink⟩ := exists_answers_conclude (a := .rsa n) husable hrecord
    (Nat.le_trans hlength (by decide)) (hq.fits (.package ha' hs' htheirs)) (hopens _ _ _ htheirs)
  have hsettled := answers_bind (f := conclude p (.rsa n) (keysUnder p n key)) hsettle hconclude
  have hproceed := answers_bind (f := fun x => select .symmetric p.config.symmetric x
    p.config.maxField p.noise.even.odd >>= conclude p (.rsa n) x) hexchange hsettled
  exact ⟨_, link, answers_bind (f := proceed p) hselect hproceed, hlink⟩

theorem Course.theirText_eq {heard first text more : Bytes} {offers : List Descriptor}
    (c : Course p heard) (hheard : heard = first ++ (field text ++ more))
    (hfirst : (receiveOffers .identity p.config.maxField).Hears first offers)
    (htext : Fits p.config.maxField text) : c.theirText = text := by
  subst hheard
  have hoffers := c.hearKeyExchange
  rw [hfirst, Option.some.injEq, Prod.mk.injEq, Prod.mk.injEq] at hoffers
  have hhear := c.hearText
  rw [← hoffers.2.2, hears_receiveField htext, Option.some.injEq, Prod.mk.injEq] at hhear
  exact hhear.1.symm

/-- Where a handshake of two parties selects RSA, it also succeeds if the other side
presents any key of more than 88 bits in place of its own, and it is that key which is
imported. -/
theorem negotiate_imports_any {s : SymmetricAlgorithm} (hp : Prepared p q) (hq : Prepared q p)
    (ha : keyExchangeWith p q = some (.rsa n)) (hs : symmetricWith p q = some s)
    (hroom : key.toText.length ≤ p.config.maxField) (hkey : 88 < Rsa.bitLength key.modulus) :
    ∃ record, (keysToward q p (.rsa n)).encrypt q.noise.odd.odd
        (Recorded.encode (s.drawPackage q.noise.odd.even)) = .ok record ∧
      ∃ (link : Link) (c : Course p (presented q p n key record)), c.EndsIn link ∧
        link.keyExchange = (KeyExchangeAlgorithm.rsa n).descriptor ∧ c.Toward key ∧
        ∀ source tail : Source, source.Delivers (presented q p n key record) tail →
          (negotiate p source .endless).result = .ok link := by
  have hfits : Fits p.config.maxField key.toText :=
    ⟨Nat.le_trans key.length_toText_le (by decide), hroom⟩
  obtain ⟨record, hrecord⟩ := (hp.keys _ ha).exists_encrypt (p := q) q.noise.odd.odd
    (Recorded.encode (s.drawPackage q.noise.odd.even))
  obtain ⟨sent, link, hanswers, hlink⟩ :=
    exists_answers_presented hp hq ha hs hfits hkey hrecord
  have hconverse := hanswers []
  rw [List.append_nil] at hconverse
  obtain ⟨c, hends, -, -⟩ := converse_dialogue hconverse
  obtain ⟨other, htoward⟩ := Course.exists_toward (hends.keyExchange_eq hlink)
  have hsame : other = key := by
    have himported := htoward.imported
    rw [c.theirText_eq rfl (hears_receiveOffers hq.audible_keyExchange) hfits,
      Rsa.PublicKey.ofText?_toText] at himported
    exact (Option.some.inj himported).symm
  subst hsame
  refine ⟨record, hrecord, link, c, hends, hlink, htoward, ?_⟩
  intro source tail hsource
  exact Dialogue.run_of_converse hconverse hsource rfl rfl

/-- Whatever the other side sends, the public key that a successful handshake with RSA
imports and encrypts under has more than 88 and at most 4096 bits; the size that was
selected does not matter. Where the other side runs the handshake as well, the key has the
size that was selected, up to the bits of one byte if it was read back from a file. -/
theorem negotiate_bounds_key (p : Party) :
    (∀ (source : Source) (sink : Sink) (ended : Dialogue.Ended Link),
      (ended = negotiate p source sink ∨ ∃ k, ended = negotiateWithin p k source sink) →
      ∀ link n, ended.result = .ok link →
        link.keyExchange = (KeyExchangeAlgorithm.rsa n).descriptor →
        ∃ (c : Course p source.bytes) (key : Rsa.PublicKey), c.EndsIn link ∧
          c.keyExchange = .rsa n ∧ c.Toward key ∧
          88 < Rsa.bitLength key.modulus ∧ Rsa.bitLength key.modulus ≤ 4096) ∧
    ∀ (q : Party) (schedule : List Turn) (l r : Link) (n : UInt32),
      ((encounter p q).follow schedule).left.result? = some (.ok l) →
      ((encounter p q).follow schedule).right.result? = some (.ok r) →
      l.keyExchange = (KeyExchangeAlgorithm.rsa n).descriptor →
      ∃ (heard heard' : Bytes) (c : Course p heard) (c' : Course q heard') (key : Rsa.PublicKey),
        heard = c'.spoken ∧ heard' = c.spoken ∧ c.EndsIn l ∧ c'.EndsIn r ∧
          c.keyExchange = .rsa n ∧ c.Toward key ∧
          n.toNat ≤ Rsa.bitLength key.modulus + 7 ∧ Rsa.bitLength key.modulus ≤ n.toNat ∧
          ((∀ path, q.config.keyLifetime = .persisted path → q.files.read? path = none) →
            Rsa.bitLength key.modulus = n.toNat) := by
  constructor
  · intro source sink ended h link n hlink hrsa
    obtain ⟨sent, rest, hconverse⟩ := converse_of_negotiate h hlink
    obtain ⟨c, hends, -, -⟩ := converse_dialogue hconverse
    have hselected := hends.keyExchange_eq hrsa
    obtain ⟨key, htoward⟩ := Course.exists_toward hselected
    exact ⟨c, key, hends, hselected, htoward, htoward.bitLength⟩
  · intro q schedule l r n hl hr hrsa
    obtain ⟨sent, sent', rest, rest', hconverse, hconverse'⟩ := Pair.converse_of_follow rfl hl hr
    obtain ⟨c, hends, hspoken, -⟩ := converse_dialogue hconverse
    obtain ⟨c', hends', hspoken', -⟩ := converse_dialogue hconverse'
    have hselected := hends.keyExchange_eq hrsa
    obtain ⟨key, htoward⟩ := Course.exists_toward hselected
    have hselected' : c'.keyExchange = .rsa n := by
      rw [← hselected, Course.keyExchange_eq hspoken' hspoken]
    obtain ⟨pair, files, hobtain, rfl⟩ := htoward.exists_obtain hspoken' hselected'
    exact ⟨_, _, c, c', pair.publicKey, hspoken', hspoken, hends, hends', hselected, htoward,
      Rsa.bitLength_of_obtain hobtain⟩

theorem long_primes : (3751 * 2 ^ 500 + 1).Prime ∧ (6171 * 2 ^ 499 + 1).Prime := by
  constructor
  · refine prime_of_two_pow 3 [11, 11, 31] ?_ (by decide) (by decide) (by decide +kernel)
    simp only [List.mem_cons, List.not_mem_nil, or_false, forall_eq_or_imp, forall_eq]
    norm_num
  · refine prime_of_two_pow 57 [3, 11, 11, 17] ?_ (by decide) (by decide) (by decide +kernel)
    simp only [List.mem_cons, List.not_mem_nil, or_false, forall_eq_or_imp, forall_eq]
    norm_num

def longDrawer (symmetric : List SymmetricAlgorithm) : Party :=
  ⟨.ofAlgorithms [.rsa 1024] symmetric, .empty, longNoise⟩

theorem hasKeys_longDrawer (symmetric : List SymmetricAlgorithm) :
    HasKeys (longDrawer symmetric) (.rsa 1024) :=
  hasKeys_of_generate 128 (3751 * 2 ^ 500 + 1, 6171 * 2 ^ 499 + 1) rfl long_key
    (by decide) long_primes.1 long_primes.2 (by decide +kernel)

def demander : Party := longDrawer [.aes 128]

def pretender : Party := longDrawer [.aes 128, .aes 256]

theorem demander_selects : keyExchangeWith demander pretender = some (.rsa 1024) ∧
    symmetricWith demander pretender = some (.aes 128) := by
  decide +kernel

theorem prepared_longDrawers : Prepared demander pretender ∧ Prepared pretender demander := by
  obtain ⟨ha, hs⟩ := demander_selects
  have ha' := (keyExchangeWith_comm pretender demander).trans ha
  have hs' := (symmetricWith_comm pretender demander).trans hs
  constructor
  · exact prepared_of_selects (by decide) (by decide) ha hs (hasKeys_longDrawer _) (by decide)
      (Nat.le_refl _)
  · exact prepared_of_selects (by decide) (by decide) ha' hs' (hasKeys_longDrawer _) (by decide)
      (Nat.le_refl _)

theorem demander_imports (key : Rsa.PublicKey) (hkey : 88 < Rsa.bitLength key.modulus) :
    ∃ (record : Bytes) (link : Link)
      (c : Course demander (presented pretender demander 1024 key record)),
      (negotiate demander [.data (presented pretender demander 1024 key record)] .endless).result =
        .ok link ∧
      link.keyExchange = (KeyExchangeAlgorithm.rsa 1024).descriptor ∧ c.EndsIn link ∧
      c.Toward key := by
  obtain ⟨hdemander, hpretender⟩ := prepared_longDrawers
  obtain ⟨record, -, link, c, hends, hlink, htoward, hnegotiate⟩ :=
    negotiate_imports_any hdemander hpretender demander_selects.1 demander_selects.2
      key.length_toText_le hkey
  exact ⟨record, link, c, hnegotiate _ [] ⟨[_], List.append_nil _, rfl⟩, hlink, hends, htoward⟩

def shortKey : Rsa.PublicKey :=
  ⟨(467 * 2 ^ 247 + 1) * (3457 * 2 ^ 244 + 1), 65537, by decide +kernel⟩

theorem bitLength_shortKey : Rsa.bitLength shortKey.modulus = 512 := by
  decide +kernel

/-- A key of 512 bits that is presented under RSA-1024, and two parties that draw their
keys of 122 bits. -/
theorem negotiate_bounds_key_at :
    (∃ (record : Bytes) (link : Link)
      (c : Course demander (Source.bytes
        [.data (presented pretender demander 1024 shortKey record)]))
      (key : Rsa.PublicKey),
      (negotiate demander [.data (presented pretender demander 1024 shortKey record)]
        .endless).result = .ok link ∧
      link.keyExchange = (KeyExchangeAlgorithm.rsa 1024).descriptor ∧ c.Toward key ∧
      88 < Rsa.bitLength key.modulus) ∧
    ∃ (schedule : List Turn) (l r : Link) (heard : Bytes) (c : Course firstDrawer heard)
      (key : Rsa.PublicKey),
      ((encounter firstDrawer secondDrawer).follow schedule).left.result? = some (.ok l) ∧
      ((encounter firstDrawer secondDrawer).follow schedule).right.result? = some (.ok r) ∧
      l.keyExchange = (KeyExchangeAlgorithm.rsa 122).descriptor ∧ c.Toward key ∧
      Rsa.bitLength key.modulus = 122 := by
  constructor
  · obtain ⟨record, link, -, hresult, hlink, -⟩ :=
      demander_imports shortKey (by rw [bitLength_shortKey]; decide)
    obtain ⟨c, key, -, -, htoward, hbits, -⟩ :=
      (negotiate_bounds_key demander).1 _ _ _ (.inl rfl) link 1024 hresult hlink
    exact ⟨record, link, c, key, hresult, hlink, htoward, hbits⟩
  · have hoffers : keyExchangeWith firstDrawer secondDrawer = some (.rsa 122) ∧
        (symmetricWith firstDrawer secondDrawer).isSome = true := by
      decide +kernel
    obtain ⟨last, hsettles, hlinks⟩ := settles_by_offers prepared_drawers.1 prepared_drawers.2
    rw [hoffers.1] at hlinks
    obtain ⟨k, hreached⟩ := hsettles.reached _ Turn.fair_alternating
    obtain rfl := hreached k (Nat.le_refl k)
    obtain ⟨l, hl⟩ := (hlinks .left).mpr ⟨rfl, hoffers.2⟩
    obtain ⟨r, hr⟩ := (hlinks .right).mpr ⟨rfl, hoffers.2⟩
    obtain ⟨_, hselected, hlink⟩ := keyExchange_of_follow hl hr
    obtain rfl := Option.some.inj (hoffers.1.symm.trans hselected)
    obtain ⟨heard, _, c, _, key, -, -, -, -, -, htoward, -, -, hbits⟩ :=
      (negotiate_bounds_key firstDrawer).2 secondDrawer _ l r 122 hl hr hlink
    exact ⟨_, l, r, heard, c, key, hl, hr, hlink, htoward,
      hbits (by intro path hpath; cases hpath)⟩

/-- Under RSA-1024 a key of 512 bits is imported, and the handshake succeeds. -/
theorem short_key_imported : Rsa.bitLength shortKey.modulus = 512 ∧
    ∃ (record : Bytes) (link : Link)
      (c : Course demander (presented pretender demander 1024 shortKey record)),
      (negotiate demander [.data (presented pretender demander 1024 shortKey record)]
        .endless).result = .ok link ∧
      link.keyExchange = (KeyExchangeAlgorithm.rsa 1024).descriptor ∧ c.EndsIn link ∧
      c.Toward shortKey :=
  ⟨bitLength_shortKey, demander_imports shortKey (by rw [bitLength_shortKey]; decide)⟩

end Handshake

end CipherLink
