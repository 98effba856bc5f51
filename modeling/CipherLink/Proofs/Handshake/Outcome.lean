import CipherLink.Proofs.Handshake.Agreement
import CipherLink.Proofs.Handshake.Contents
import CipherLink.Proofs.Handshake.Deliveries
import Mathlib.NumberTheory.LucasPrimality
import Mathlib.Tactic.NormNum.Prime

/-!
# The outcome of a handshake

Two parties whose keys and ciphers can be used, and whose limits leave room for what
they write, come to the same end in whatever order they take their steps: both fail for
want of a common key exchange, both fail for want of a common cipher, or both are ready.
A side that has hung up makes no difference to the other one.
-/

namespace CipherLink.Handshake

open Dialogue

variable {p q : Party} {a : KeyExchangeAlgorithm}

/-- Whether a party obtains the key pair that a key exchange asks for, and the pair
leaves room for a message and undoes its own encryption. -/
def HasKeys (p : Party) (a : KeyExchangeAlgorithm) : Prop :=
  ∀ size, a = .rsa size → ∃ key files,
    Rsa.obtain size.toNat p.config.keyLifetime p.files p.noise.even.even = (.ok key, files) ∧
      12 ≤ key.publicKey.blockLength ∧ key.Inverts

theorem HasKeys.keyPair? {size : UInt32} (h : HasKeys p (.rsa size)) :
    ∃ key, keyPair? p (.rsa size) = some key ∧ 12 ≤ key.publicKey.blockLength ∧ key.Inverts := by
  obtain ⟨key, files, hobtain, hroom, hinverts⟩ := h size rfl
  exact ⟨key, by rw [Handshake.keyPair?, hobtain]; rfl, hroom, hinverts⟩

def ownKeys (p : Party) (a : KeyExchangeAlgorithm) : KeyExchange :=
  match a with
  | .identity => .identity
  | .rsa size => .rsa ⟨size.toNat, p.config.keyLifetime, keyPair? p a, none⟩

theorem HasKeys.obtainKeys (h : HasKeys p a) :
    ∃ files, obtainKeys p a p.noise.even.even = .keep files (.done (ownKeys p a)) := by
  cases a with
  | identity => exact ⟨p.files, rfl⟩
  | rsa size =>
    obtain ⟨key, files, hobtain, -⟩ := h size rfl
    refine ⟨files, ?_⟩
    simp only [Handshake.obtainKeys, KeyExchange.start, KeyExchange.generateKeys,
      RsaExchange.renew, hobtain, ownKeys, Handshake.keyPair?]
    rfl

theorem HasKeys.publicKey (h : HasKeys p a) : (ownKeys p a).publicKey = .ok (publicText p a) := by
  cases a with
  | identity => rfl
  | rsa size =>
    obtain ⟨key, hkey, -⟩ := h.keyPair?
    simp only [ownKeys, KeyExchange.publicKey, RsaExchange.publicKey, publicText, hkey]

theorem HasKeys.setPublicKey (h : HasKeys q a) :
    (ownKeys p a).setPublicKey (publicText q a) = .ok (keysToward p q a) := by
  cases a with
  | identity => rfl
  | rsa size =>
    obtain ⟨key, hkey, -⟩ := h.keyPair?
    simp only [ownKeys, KeyExchange.setPublicKey, publicText, hkey,
      RsaExchange.setPublicKey_toText, keysToward]
    rfl

theorem HasKeys.exists_encrypt (h : HasKeys q a) (noise : Noise) (bs : Bytes) :
    ∃ cs, (keysToward p q a).encrypt noise bs = .ok cs := by
  cases a with
  | identity => exact ⟨bs, rfl⟩
  | rsa size =>
    obtain ⟨key, hkey, hroom, -⟩ := h.keyPair?
    simp only [keysToward, KeyExchange.encrypt, RsaExchange.encrypt, hkey, Option.map_some]
    exact Rsa.PublicKey.exists_encrypt hroom noise bs

theorem HasKeys.opens (h : HasKeys q a) : (keysToward q p a).Opens (keysToward p q a) := by
  intro noise bs cs hencrypt
  cases a with
  | identity => exact hencrypt.symm
  | rsa size =>
    obtain ⟨key, hkey, -, hinverts⟩ := h.keyPair?
    simp only [keysToward, KeyExchange.encrypt, RsaExchange.encrypt, hkey, Option.map_some]
      at hencrypt
    simp only [keysToward, KeyExchange.decrypt, RsaExchange.decrypt, hkey]
    exact Rsa.decrypt_encrypt hinverts hencrypt

theorem length_records_of_encrypt {x : KeyExchange}
    (h : ∀ noise bs, ∃ cs, x.encrypt noise bs = .ok cs) (noise : Noise)
    (offers : List Descriptor) : (records x noise offers).length = offers.length := by
  induction offers generalizing noise with
  | nil => rfl
  | cons offer offers ih =>
    obtain ⟨record, hrecord⟩ := h noise.even (Recorded.encode offer)
    simp only [records, hrecord, List.length_cons, ih]

/-- What a party needs for a handshake with another one to take its course: not too many
algorithms, keys and a cipher that can be used, should they be selected, and a peer whose
limit leaves room for every field. -/
structure Prepared (p q : Party) : Prop where
  fewKeyExchanges : p.config.keyExchange.size ≤ maxOffers
  fewSymmetric : p.config.symmetric.size ≤ maxOffers
  keys : ∀ a, keyExchangeWith p q = some a → HasKeys p a
  cipher : ∀ a s, keyExchangeWith p q = some a → symmetricWith p q = some s → s.Usable
  room : ∀ content, Writes p q content → content.length ≤ q.config.maxField

theorem Prepared.fits (h : Prepared p q) {content : Bytes} (hwrites : Writes p q content) :
    Fits q.config.maxField content :=
  ⟨Nat.le_trans (hwrites.length_le h.cipher) (by decide), h.room content hwrites⟩

theorem prepared_of_ample (hkeyExchanges : p.config.keyExchange.size ≤ maxOffers)
    (hsymmetric : p.config.symmetric.size ≤ maxOffers)
    (hkeys : ∀ a, keyExchangeWith p q = some a → HasKeys p a)
    (hcipher : ∀ a s, keyExchangeWith p q = some a → symmetricWith p q = some s → s.Usable)
    (hlimit : 64 * 1024 ≤ q.config.maxField) : Prepared p q :=
  ⟨hkeyExchanges, hsymmetric, hkeys, hcipher,
    fun _ hwrites => Nat.le_trans (hwrites.length_le hcipher) hlimit⟩

theorem prepared_of_selects {s : SymmetricAlgorithm}
    (hkeyExchanges : p.config.keyExchange.size ≤ maxOffers)
    (hsymmetric : p.config.symmetric.size ≤ maxOffers) (ha : keyExchangeWith p q = some a)
    (hs : symmetricWith p q = some s) (hkeys : HasKeys p a) (husable : s.Usable)
    (hlimit : 64 * 1024 ≤ q.config.maxField) : Prepared p q := by
  refine prepared_of_ample hkeyExchanges hsymmetric ?_ ?_ hlimit
  · rw [ha]
    rintro _ ⟨⟩
    exact hkeys
  · rw [hs]
    rintro _ _ - ⟨⟩
    exact husable

theorem keyExchangeWith_comm (p q : Party) : keyExchangeWith p q = keyExchangeWith q p :=
  Container.selectStrongest_comm fun _ _ => KeyExchangeAlgorithm.eq_of_isMatch

theorem symmetricWith_comm (p q : Party) : symmetricWith p q = symmetricWith q p :=
  Container.selectStrongest_comm fun _ _ => SymmetricAlgorithm.eq_of_isMatch

theorem keyExchangeWith_eq_none_iff : keyExchangeWith p q = none ↔
    p.config.keyExchange.supported.Disjoint q.config.keyExchange.supported :=
  Container.selectStrongest_eq_none_iff fun _ _ => KeyExchangeAlgorithm.eq_of_isMatch

theorem symmetricWith_eq_none_iff : symmetricWith p q = none ↔
    p.config.symmetric.supported.Disjoint q.config.symmetric.supported :=
  Container.selectStrongest_eq_none_iff fun _ _ => SymmetricAlgorithm.eq_of_isMatch

theorem Prepared.audible_keyExchange (h : Prepared p q) : Audible .identity .identity
    p.noise.even.odd p.config.keyExchange.supported q.config.maxField where
  opens _ _ _ hencrypt := hencrypt.symm
  encrypts := length_records_of_encrypt (fun _ bs => ⟨bs, rfl⟩) _ _
  few := by
    rw [Container.supported, List.length_map]
    exact h.fewKeyExchanges
  writable := Container.writable_of_mem_supported KeyExchangeAlgorithm.writable
  fits := by
    intro record hrecord
    rw [records_identity] at hrecord
    obtain ⟨offer, hoffer, rfl⟩ := List.mem_map.mp hrecord
    obtain ⟨a, ha, rfl⟩ := List.mem_map.mp hoffer
    exact h.fits (.keyExchange a ha)

theorem Prepared.audible_symmetric (h : Prepared p q) (ha : keyExchangeWith p q = some a)
    (hkeys : HasKeys q a) : Audible (keysToward p q a) (keysToward q p a) p.noise.even.odd
      p.config.symmetric.supported q.config.maxField where
  opens := hkeys.opens
  encrypts := length_records_of_encrypt hkeys.exists_encrypt _ _
  few := by
    rw [Container.supported, List.length_map]
    exact h.fewSymmetric
  writable := Container.writable_of_mem_supported SymmetricAlgorithm.writable
  fits _ hrecord := h.fits (.symmetric ha hrecord)

theorem together_keyExchange (hp : Prepared p q) (hq : Prepared q p) :
    Together (dialogue p) (dialogue q) (settle .keyExchange (keyExchangeWith p q) >>= proceed p)
      (settle .keyExchange (keyExchangeWith q p) >>= proceed q) :=
  together_select hp.audible_keyExchange hq.audible_keyExchange (proceed p) (proceed q)

theorem exchangeKeys_eq (β : Type) (h : HasKeys p a) : ∃ files, ∀ f : KeyExchange → Dialogue β,
    exchangeKeys p a p.noise.even.even >>= f = .keep files (sendField (publicText p a) >>= fun _ =>
      receiveField p.config.maxField >>= fun theirs =>
        ofCrypto ((ownKeys p a).setPublicKey theirs) >>= f) := by
  obtain ⟨files, hobtain⟩ := h.obtainKeys
  refine ⟨files, fun f => ?_⟩
  have hexchange : exchangeKeys p a p.noise.even.even = .keep files
      (sendField (publicText p a) >>= fun _ => receiveField p.config.maxField >>= fun theirs =>
        ofCrypto ((ownKeys p a).setPublicKey theirs)) := by
    have hpublish : ofCrypto (ownKeys p a).publicKey = .done (publicText p a) := by
      rw [h.publicKey]
      rfl
    rw [exchangeKeys, hobtain]
    change Dialogue.keep files (ofCrypto (ownKeys p a).publicKey >>= fun own => sendField own >>=
      fun _ => receiveField p.config.maxField >>= fun theirs =>
        ofCrypto ((ownKeys p a).setPublicKey theirs)) = _
    rw [hpublish]
    rfl
  rw [hexchange]
  change Dialogue.keep files (_ >>= f) = _
  simp only [bind_assoc]

theorem together_exchangeKeys {β : Type} (hp : Prepared p q) (hq : Prepared q p)
    (ha : keyExchangeWith p q = some a) (f f' : KeyExchange → Dialogue β) :
    Together (exchangeKeys p a p.noise.even.even >>= f) (exchangeKeys q a q.noise.even.even >>= f')
      (f (keysToward p q a)) (f' (keysToward q p a)) := by
  have ha' : keyExchangeWith q p = some a := (keyExchangeWith_comm q p).trans ha
  have hkeys := hp.keys a ha
  have hkeys' := hq.keys a ha'
  have htext := hp.fits (.publicKey ha)
  have htext' := hq.fits (.publicKey ha')
  have haccept : ofCrypto ((ownKeys p a).setPublicKey (publicText q a)) >>= f =
      f (keysToward p q a) := by
    rw [hkeys'.setPublicKey]
    rfl
  have haccept' : ofCrypto ((ownKeys q a).setPublicKey (publicText p a)) >>= f' =
      f' (keysToward q p a) := by
    rw [hkeys.setPublicKey]
    rfl
  obtain ⟨files, heq⟩ := exchangeKeys_eq β hkeys
  obtain ⟨files', heq'⟩ := exchangeKeys_eq β hkeys'
  rw [heq, heq', ← haccept, ← haccept']
  refine (together_keep files files' _ _).trans ?_
  exact together_of_exchange (says_sendField htext.1) (says_sendField htext'.1)
    (hears_receiveField htext') (hears_receiveField htext) (waits_receiveField _)
    (waits_receiveField _) (fun theirs => ofCrypto ((ownKeys p a).setPublicKey theirs) >>= f)
    (fun theirs => ofCrypto ((ownKeys q a).setPublicKey theirs) >>= f')

theorem together_symmetric {β : Type} (hp : Prepared p q) (hq : Prepared q p)
    (ha : keyExchangeWith p q = some a) (f f' : SymmetricAlgorithm → Dialogue β) :
    Together
      (select .symmetric p.config.symmetric (keysToward p q a) p.config.maxField p.noise.even.odd
        >>= f)
      (select .symmetric q.config.symmetric (keysToward q p a) q.config.maxField q.noise.even.odd
        >>= f')
      (settle .symmetric (symmetricWith p q) >>= f)
      (settle .symmetric (symmetricWith q p) >>= f') := by
  have ha' : keyExchangeWith q p = some a := (keyExchangeWith_comm q p).trans ha
  exact together_select (hp.audible_symmetric ha (hq.keys a ha'))
    (hq.audible_symmetric ha' (hp.keys a ha)) f f'

theorem together_proceed (hp : Prepared p q) (hq : Prepared q p)
    (ha : keyExchangeWith p q = some a) : Together (dialogue p) (dialogue q)
      (settle .symmetric (symmetricWith p q) >>= conclude p a (keysToward p q a))
      (settle .symmetric (symmetricWith q p) >>= conclude q a (keysToward q p a)) := by
  have hselect := together_keyExchange hp hq
  rw [keyExchangeWith_comm q p, ha] at hselect
  change Together _ _ (proceed p a) (proceed q a) at hselect
  rw [proceed_eq, proceed_eq] at hselect
  refine hselect.trans ((together_enter _ _ _ _).trans ?_)
  exact (together_exchangeKeys hp hq ha _ _).trans (together_symmetric hp hq ha _ _)

theorem exchangePackages_eq {β : Type} {x : KeyExchange} {own : KeyPackage} {record : Bytes}
    {noise : Noise} (h : x.encrypt noise (Recorded.encode own) = .ok record) (limit : Nat)
    (f : KeyPackage → Dialogue β) : exchangePackages x own limit noise >>= f =
      sendField record >>= fun _ => receiveField limit >>= fun theirs =>
        ofCrypto (x.decrypt theirs) >>= fun plain => decode plain >>= f := by
  have hencrypt : ofCrypto (x.encrypt noise (Recorded.encode own)) = .done record := by
    rw [h]
    rfl
  have hexchange : exchangePackages x own limit noise = sendField record >>= fun _ =>
      receiveField limit >>= fun theirs => ofCrypto (x.decrypt theirs) >>= decode := by
    rw [exchangePackages, hencrypt]
    rfl
  rw [hexchange]
  simp only [bind_assoc]

theorem together_exchangePackages {β : Type} {s : SymmetricAlgorithm} (hp : Prepared p q)
    (hq : Prepared q p) (ha : keyExchangeWith p q = some a) (hs : symmetricWith p q = some s)
    (f f' : KeyPackage → Dialogue β) :
    Together
      (exchangePackages (keysToward p q a) (s.drawPackage p.noise.odd.even) p.config.maxField
        p.noise.odd.odd >>= f)
      (exchangePackages (keysToward q p a) (s.drawPackage q.noise.odd.even) q.config.maxField
        q.noise.odd.odd >>= f')
      (f (s.drawPackage q.noise.odd.even)) (f' (s.drawPackage p.noise.odd.even)) := by
  have ha' : keyExchangeWith q p = some a := (keyExchangeWith_comm q p).trans ha
  have hs' : symmetricWith q p = some s := (symmetricWith_comm q p).trans hs
  obtain ⟨record, hrecord⟩ := (hq.keys a ha').exists_encrypt (p := p) p.noise.odd.odd
    (Recorded.encode (s.drawPackage p.noise.odd.even))
  obtain ⟨record', hrecord'⟩ := (hp.keys a ha).exists_encrypt (p := q) q.noise.odd.odd
    (Recorded.encode (s.drawPackage q.noise.odd.even))
  have hfits := hp.fits (.package ha hs hrecord)
  have hfits' := hq.fits (.package ha' hs' hrecord')
  have hread {x : KeyExchange} {noise : Noise} {cs : Bytes} (g : KeyPackage → Dialogue β)
      (h : x.decrypt cs = .ok (Recorded.encode (s.drawPackage noise))) :
      (ofCrypto (x.decrypt cs) >>= fun plain => decode plain >>= g) = g (s.drawPackage noise) := by
    rw [h]
    change decode _ >>= g = _
    rw [decode_record (s.writable_drawPackage noise)]
    rfl
  have hopens := (hp.keys a ha).opens _ _ _ hrecord'
  have hopens' := (hq.keys a ha').opens _ _ _ hrecord
  rw [exchangePackages_eq hrecord, exchangePackages_eq hrecord', ← hread f hopens,
    ← hread f' hopens']
  exact together_of_exchange (says_sendField hfits.1) (says_sendField hfits'.1)
    (hears_receiveField hfits') (hears_receiveField hfits) (waits_receiveField _)
    (waits_receiveField _)
    (fun theirs => ofCrypto ((keysToward p q a).decrypt theirs) >>= fun plain =>
      decode plain >>= f)
    (fun theirs => ofCrypto ((keysToward q p a).decrypt theirs) >>= fun plain =>
      decode plain >>= f')

theorem exists_together_ready {s : SymmetricAlgorithm} (hp : Prepared p q) (hq : Prepared q p)
    (ha : keyExchangeWith p q = some a) (hs : symmetricWith p q = some s) :
    ∃ link link', Together (dialogue p) (dialogue q) (.enter .ready (.done link))
      (.enter .ready (.done link')) := by
  have husable := hp.cipher a s ha hs
  obtain ⟨⟨outbound, houtbound⟩, inbound', hinbound'⟩ := husable.draws p.noise.odd.even
  obtain ⟨⟨outbound', houtbound'⟩, inbound, hinbound⟩ := husable.draws q.noise.odd.even
  have hselect := together_proceed hp hq ha
  rw [symmetricWith_comm q p, hs] at hselect
  change Together _ _ (conclude p a _ s) (conclude q a _ s) at hselect
  rw [conclude_eq, conclude_eq] at hselect
  have hpackages := hselect.trans ((together_enter _ _ _ _).trans
    (together_exchangePackages hp hq ha hs _ _))
  rw [houtbound, houtbound', hinbound, hinbound'] at hpackages
  exact ⟨_, _, hpackages.trans (together_enter _ _ _ _)⟩

/-- Two parties that are prepared for each other come to one end in any order of their
steps, and none of them notices whether the other one has hung up: without a common key
exchange both fail for want of it, else without a common cipher both fail for want of
that, and else both are ready. -/
theorem encounter_settles (hp : Prepared p q) (hq : Prepared q p) :
    ∃ last, (encounter p q).Settles last ∧
      (p.config.keyExchange.supported.Disjoint q.config.keyExchange.supported →
        ∀ t, (last.side t).result? = some (.error (.noCommonAlgorithm .keyExchange)) ∧
          (last.side t).phase = .failed) ∧
      (¬p.config.keyExchange.supported.Disjoint q.config.keyExchange.supported →
        p.config.symmetric.supported.Disjoint q.config.symmetric.supported →
        ∀ t, (last.side t).result? = some (.error (.noCommonAlgorithm .symmetric)) ∧
          (last.side t).phase = .failed) ∧
      (¬p.config.keyExchange.supported.Disjoint q.config.keyExchange.supported →
        ¬p.config.symmetric.supported.Disjoint q.config.symmetric.supported →
        ∀ t, ∃ link, (last.side t).result? = some (.ok link) ∧ (last.side t).phase = .ready) := by
  rw [← keyExchangeWith_eq_none_iff, ← symmetricWith_eq_none_iff]
  cases ha : keyExchangeWith p q with
  | none =>
    have hfailed := together_keyExchange hp hq
    rw [keyExchangeWith_comm q p, ha] at hfailed
    obtain ⟨last, hsettles, hleft, hright⟩ :=
      hfailed.settles (comesTo_failed _) (comesTo_failed _) p.files q.files
    refine ⟨last, hsettles, ?_, by simp, by simp⟩
    rintro - (_ | _)
    · exact hleft
    · exact hright
  | some a =>
    cases hs : symmetricWith p q with
    | none =>
      have hfailed := together_proceed hp hq ha
      rw [symmetricWith_comm q p, hs] at hfailed
      obtain ⟨last, hsettles, hleft, hright⟩ :=
        hfailed.settles (comesTo_failed _) (comesTo_failed _) p.files q.files
      refine ⟨last, hsettles, by simp, ?_, by simp⟩
      rintro - - (_ | _)
      · exact hleft
      · exact hright
    | some s =>
      obtain ⟨link, link', hready⟩ := exists_together_ready hp hq ha hs
      obtain ⟨last, hsettles, hleft, hright⟩ :=
        hready.settles (comesTo_enter _ _) (comesTo_enter _ _) p.files q.files
      refine ⟨last, hsettles, by simp, by simp, ?_⟩
      rintro - - (_ | _)
      · exact ⟨link, hleft⟩
      · exact ⟨link', hright⟩

/-- Two parties that are prepared for each other succeed if and only if they have a key
exchange and a symmetric algorithm in common. -/
theorem settles_by_offers {p q : Party} (hp : Prepared p q) (hq : Prepared q p) :
    ∃ last, (encounter p q).Settles last ∧ ∀ t,
      (∃ link, (last.side t).result? = some (.ok link)) ↔
        (keyExchangeWith p q).isSome ∧ (symmetricWith p q).isSome := by
  cases ha : keyExchangeWith p q with
  | none =>
    have hfailed := together_keyExchange hp hq
    rw [keyExchangeWith_comm q p, ha] at hfailed
    obtain ⟨last, hsettles, hleft, hright⟩ := hfailed.settles
      (comesTo_failed _) (comesTo_failed _) p.files q.files
    refine ⟨last, hsettles, ?_⟩
    rintro (_ | _)
    · simp [Pair.side, hleft.1]
    · simp [Pair.side, hright.1]
  | some a =>
    cases hs : symmetricWith p q with
    | none =>
      have hfailed := together_proceed hp hq ha
      rw [symmetricWith_comm q p, hs] at hfailed
      obtain ⟨last, hsettles, hleft, hright⟩ := hfailed.settles
        (comesTo_failed _) (comesTo_failed _) p.files q.files
      refine ⟨last, hsettles, ?_⟩
      rintro (_ | _)
      · simp [Pair.side, hleft.1]
      · simp [Pair.side, hright.1]
    | some s =>
      obtain ⟨link, link', hready⟩ := exists_together_ready hp hq ha hs
      obtain ⟨last, hsettles, hleft, hright⟩ := hready.settles
        (comesTo_enter _ _) (comesTo_enter _ _) p.files q.files
      refine ⟨last, hsettles, ?_⟩
      rintro (_ | _)
      · simp [Pair.side, hleft.1]
      · simp [Pair.side, hright.1]

theorem prime_of_powMod {n : ℕ} (base : ℕ) (factors : List ℕ) (hn : 1 < n)
    (hprimes : ∀ f ∈ factors, f.Prime) (hproduct : factors.prod = n - 1)
    (hone : Modular.powMod base (n - 1) n = 1)
    (hne : ∀ f ∈ factors, Modular.powMod base ((n - 1) / f) n ≠ 1) : n.Prime := by
  have hpower (e : ℕ) : (base : ZMod n) ^ e = 1 ↔ Modular.powMod base e n = 1 := by
    rw [Modular.powMod_eq, Nat.pow_eq, ← Nat.cast_pow, ← Nat.cast_one, ZMod.natCast_eq_natCast_iff',
      Nat.mod_eq_of_lt hn]
  refine lucas_primality n base ((hpower _).mpr hone) ?_
  intro f hf hdvd
  rw [← hproduct] at hdvd
  obtain ⟨g, hg, hdvd⟩ := (Prime.dvd_prod_iff hf.prime).mp hdvd
  obtain rfl : f = g := (Nat.prime_dvd_prime_iff_eq hf (hprimes g hg)).mp hdvd
  rw [ne_eq, hpower]
  exact hne f hg

theorem prime_of_two_pow {k m : ℕ} (base : ℕ) (factors : List ℕ)
    (hprimes : ∀ f ∈ factors, f.Prime) (hproduct : factors.prod = k) (hk : k ≠ 0)
    (htest : Modular.powMod base (k * 2 ^ m) (k * 2 ^ m + 1) = 1 ∧
      ∀ f ∈ 2 :: factors, Modular.powMod base (k * 2 ^ m / f) (k * 2 ^ m + 1) ≠ 1) :
    (k * 2 ^ m + 1).Prime := by
  obtain ⟨hone, hne⟩ := htest
  refine prime_of_powMod base (List.replicate m 2 ++ factors) ?_ ?_ ?_ hone ?_
  · have hpositive : 0 < k * 2 ^ m := Nat.mul_pos (Nat.pos_of_ne_zero hk) (Nat.two_pow_pos m)
    omega
  · intro f hf
    obtain hf | hf := List.mem_append.mp hf
    · obtain ⟨-, rfl⟩ := List.mem_replicate.mp hf
      exact Nat.prime_two
    · exact hprimes f hf
  · rw [List.prod_append, List.prod_replicate, hproduct, Nat.add_sub_cancel, Nat.mul_comm]
  · intro f hf
    rw [Nat.add_sub_cancel]
    obtain hf | hf := List.mem_append.mp hf
    · obtain ⟨-, rfl⟩ := List.mem_replicate.mp hf
      exact hne 2 List.mem_cons_self
    · exact hne f (List.mem_cons_of_mem 2 hf)

theorem prime_greatest : (2 ^ 61 - 1).Prime :=
  lucas_lehmer_sufficiency 61 (by decide) (by norm_num)

theorem prime_next : (2 ^ 61 - 31).Prime := by
  refine prime_of_powMod 14 [2, 2, 2, 2, 2, 3, 5, 17, 29, 43, 113, 127, 15790321] (by decide) ?_
    (by decide) (by decide +kernel) (by decide +kernel)
  simp only [List.mem_cons, List.not_mem_nil, or_false, forall_eq_or_imp, forall_eq]
  norm_num

theorem hasKeys_of_generate {size : UInt32} (length : ℕ) (factors : ℕ × ℕ)
    (hlifetime : p.config.keyLifetime = .ephemeral)
    (hgenerate : (Rsa.generate size.toNat p.noise.even.even).toOption.map
      (fun key => (key.publicKey.blockLength, key.p, key.q)) = some (length, factors))
    (hroom : 12 ≤ length) (hp : factors.1.Prime) (hq : factors.2.Prime)
    (hne : factors.1 ≠ factors.2) : HasKeys p (.rsa size) := by
  rintro _ ⟨⟩
  obtain ⟨key, hkey, hparts⟩ := Option.map_eq_some_iff.mp hgenerate
  simp only [Prod.mk.injEq] at hparts
  obtain ⟨rfl, rfl⟩ := hparts
  refine ⟨key, p.files, ?_, hroom, Rsa.PrivateKey.inverts_of_prime hp hq hne⟩
  rw [hlifetime]
  simp only [Rsa.obtain, eq_ok_of_toOption hkey]

def drawer (keyExchange : List KeyExchangeAlgorithm) (symmetric : List SymmetricAlgorithm)
    (odd : Nat) : Party :=
  ⟨.ofAlgorithms keyExchange symmetric, .empty, fun i => if i = odd then 0xe1 else 0xff⟩

def firstDrawer : Party := drawer [.rsa 122] [.identity, .aes 128] 60

def secondDrawer : Party := drawer [.identity, .rsa 122] [.aes 128, .aes 256] 56

theorem prepared_drawers :
    Prepared firstDrawer secondDrawer ∧ Prepared secondDrawer firstDrawer := by
  have ha : keyExchangeWith firstDrawer secondDrawer = some (.rsa 122) := by decide +kernel
  have hs : symmetricWith firstDrawer secondDrawer = some (.aes 128) := by decide +kernel
  have hfirst : HasKeys firstDrawer (.rsa 122) :=
    hasKeys_of_generate 16 (2 ^ 61 - 1, 2 ^ 61 - 31) rfl
      (by decide +kernel) (by decide) prime_greatest prime_next (by decide)
  have hsecond : HasKeys secondDrawer (.rsa 122) :=
    hasKeys_of_generate 16 (2 ^ 61 - 31, 2 ^ 61 - 1) rfl
      (by decide +kernel) (by decide) prime_next prime_greatest (by decide)
  have ha' := (keyExchangeWith_comm secondDrawer firstDrawer).trans ha
  have hs' := (symmetricWith_comm secondDrawer firstDrawer).trans hs
  constructor
  · exact prepared_of_selects (by decide) (by decide) ha hs hfirst (by decide) (Nat.le_refl _)
  · exact prepared_of_selects (by decide) (by decide) ha' hs' hsecond (by decide) (Nat.le_refl _)

theorem encounter_settles_at : Prepared firstDrawer secondDrawer ∧
    Prepared secondDrawer firstDrawer ∧
    ∃ last, (encounter firstDrawer secondDrawer).Settles last ∧
      ∀ t, ∃ link, (last.side t).result? = some (.ok link) ∧ (last.side t).phase = .ready := by
  obtain ⟨hfirst, hsecond⟩ := prepared_drawers
  obtain ⟨last, hsettles, -, -, hready⟩ := encounter_settles hfirst hsecond
  refine ⟨hfirst, hsecond, last, hsettles, hready ?_ ?_⟩
  · rw [← keyExchangeWith_eq_none_iff]
    decide +kernel
  · rw [← symmetricWith_eq_none_iff]
    decide +kernel

end CipherLink.Handshake
