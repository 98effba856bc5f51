import CipherLink.Proofs.Handshake.Agreement
import CipherLink.Proofs.Handshake.Wire

/-!
# What a handshake discloses

At every moment of a handshake, however hostile the other side is and wherever the
stream, the sink or the time comes to an end, a side has sent no more than it may at
that point: each part of what it says stands behind the part of the other side that it
answers, heard whole and accepted.
-/

namespace CipherLink

theorem KeyExchange.encrypt_of_accepted {size : UInt32} {lifetime : KeyLifetime}
    {files filled : KeyFiles} {noise : Noise} {own keys : KeyExchange} {text : Bytes}
    (hown : (start (.rsa size) lifetime).generateKeys files noise = (.ok (), own, filled))
    (haccept : own.setPublicKey text = .ok keys) :
    ∃ key, Rsa.PublicKey.ofText? text = some key ∧
      ∀ drawn bs, keys.encrypt drawn bs = key.encrypt drawn bs := by
  obtain ⟨pair, -, rfl⟩ := generateKeys_rsa hown
  obtain ⟨x, hx, rfl⟩ := setPublicKey_rsa haccept
  rw [RsaExchange.setPublicKey] at hx
  split at hx
  · simp at hx
  · split at hx
    · next key hkey =>
      obtain rfl := Except.ok.inj hx
      exact ⟨key, hkey, fun _ _ => rfl⟩
    · simp at hx

namespace Handshake

open Dialogue

section

variable {p : Party} {heard second third : Bytes}

structure Chosen (p : Party) (heard : Bytes) where
  offers : List Descriptor
  keyExchange : KeyExchangeAlgorithm
  hears : (receiveOffers .identity p.config.maxField).converse heard = some (offers, [], [])
  selects : p.config.keyExchange.selectStrongest offers = some keyExchange

structure Keyed (c : Chosen p heard) where
  own : KeyExchange
  text : Bytes
  obtains : ∃ files, (KeyExchange.start c.keyExchange p.config.keyLifetime).generateKeys p.files
    p.noise.even.even = (.ok (), own, files)
  publishes : own.publicKey = .ok text

structure Accepted {c : Chosen p heard} (k : Keyed c) (second : Bytes) where
  text : Bytes
  keys : KeyExchange
  hears : (receiveField p.config.maxField).converse second = some (text, [], [])
  accepts : k.own.setPublicKey text = .ok keys
  toward : ∀ size, c.keyExchange = .rsa size → ∃ key, Rsa.PublicKey.ofText? text = some key ∧
    ∀ noise bs, keys.encrypt noise bs = key.encrypt noise bs

variable {c : Chosen p heard} {k : Keyed c}

structure Settled (a : Accepted k second) (third : Bytes) where
  offers : List Descriptor
  symmetric : SymmetricAlgorithm
  encrypts : (records a.keys p.noise.even.odd p.config.symmetric.supported).length =
    p.config.symmetric.supported.length
  hears : (receiveOffers a.keys p.config.maxField).converse third = some (offers, [], [])
  selects : p.config.symmetric.selectStrongest offers = some symmetric

structure Packed {a : Accepted k second} (s : Settled a third) where
  record : Bytes
  encrypts : a.keys.encrypt p.noise.odd.odd
    (Recorded.encode (s.symmetric.drawPackage p.noise.odd.even)) = .ok record

end

def plainOffers (p : Party) : Bytes :=
  Bytes.ofNat numberLength p.config.keyExchange.supported.length ++
    p.config.keyExchange.supported.flatMap fun offer => field (Recorded.encode offer)

def sealedOffers (p : Party) (keys : KeyExchange) : Bytes :=
  offerList keys p.noise.even.odd p.config.symmetric.supported

/-- What a side may have heard and sent at one moment of a handshake. -/
inductive Disclosed (p : Party) : Bytes → Bytes → Prop
  | offers {part : Bytes} (hpart : part <+: plainOffers p) : Disclosed p [] part
  | listens (heard : Bytes) : Disclosed p heard (plainOffers p)
  | key {first part : Bytes} {c : Chosen p first} (k : Keyed c) (hpart : part <+: field k.text) :
      Disclosed p first (plainOffers p ++ part)
  | listensForKey {first : Bytes} {c : Chosen p first} (k : Keyed c) (heard : Bytes) :
      Disclosed p (first ++ heard) (plainOffers p ++ field k.text)
  | symmetric {first second part : Bytes} {c : Chosen p first} {k : Keyed c}
      (a : Accepted k second) (hpart : part <+: sealedOffers p a.keys) :
      Disclosed p (first ++ second) (plainOffers p ++ field k.text ++ part)
  | listensForSymmetric {first second : Bytes} {c : Chosen p first} {k : Keyed c}
      (a : Accepted k second) (heard : Bytes) :
      Disclosed p (first ++ second ++ heard)
        (plainOffers p ++ field k.text ++ sealedOffers p a.keys)
  | package {first second third part : Bytes} {c : Chosen p first} {k : Keyed c}
      {a : Accepted k second} {s : Settled a third} (r : Packed s)
      (hpart : part <+: field r.record) :
      Disclosed p (first ++ second ++ third)
        (plainOffers p ++ field k.text ++ sealedOffers p a.keys ++ part)
  | listensForPackage {first second third : Bytes} {c : Chosen p first} {k : Keyed c}
      {a : Accepted k second} {s : Settled a third} (r : Packed s) (heard : Bytes) :
      Disclosed p (first ++ second ++ third ++ heard)
        (plainOffers p ++ field k.text ++ sealedOffers p a.keys ++ field r.record)

/-- What a side has heard and sent when a handshake stops, and what it has sent when
the two sides had nothing in common. -/
structure Discloses (p : Party) (heard sent : Bytes) (result : Except HandshakeError Link) :
    Prop where
  moment : Disclosed p heard sent
  keyExchange : result = .error (.noCommonAlgorithm .keyExchange) → sent = plainOffers p
  symmetric : result = .error (.noCommonAlgorithm .symmetric) →
    ∃ (first second : Bytes) (c : Chosen p first) (k : Keyed c) (a : Accepted k second),
      sent = plainOffers p ++ field k.text ++ sealedOffers p a.keys

theorem Disclosed.discloses {p : Party} {heard sent : Bytes} {result : Except HandshakeError Link}
    (h : Disclosed p heard sent) (hagrees : ∀ stage, result ≠ .error (.noCommonAlgorithm stage)) :
    Discloses p heard sent result :=
  ⟨h, fun hrefused => absurd hrefused (hagrees _), fun hrefused => absurd hrefused (hagrees _)⟩

variable {heard sent : Bytes} {cause : HandshakeError}

theorem admits_select {α : Type} [Algorithm α] {stage : Stage} {container : Container α}
    {x : KeyExchange} {limit : Nat} {noise : Noise}
    (h : (select stage container x limit noise).Admits heard sent (.error cause)) :
    (heard = [] ∧ sent <+: offerList x noise container.supported ∧
        ∀ other, cause ≠ .noCommonAlgorithm other) ∨
      (sent = offerList x noise container.supported ∧
        ∀ other, cause = .noCommonAlgorithm other → other = stage) := by
  obtain ⟨_, hcause, hsend⟩ | ⟨_, _, _, _, _, rfl, rfl, hsend, h⟩ := admits_bind h
  · obtain rfl := Except.error.inj hcause
    obtain ⟨hheard, hsent, -⟩ := speaks_sendOffers _ _ _ _ _ _ hsend
    refine .inl ⟨hheard, hsent, ?_⟩
    rintro other rfl
    exact agrees_sendOffers _ _ _ _ _ _ hsend
  obtain ⟨-, -, hall⟩ := speaks_sendOffers _ _ _ _ _ _ hsend
  rw [hall () rfl]
  obtain ⟨_, hcause, hreceive⟩ | ⟨theirs, _, _, _, _, -, rfl, hreceive, h⟩ := admits_bind h
  · obtain rfl := Except.error.inj hcause
    rw [listens_receiveOffers _ _ _ _ _ hreceive, List.append_nil]
    refine .inr ⟨rfl, ?_⟩
    rintro other rfl
    exact absurd hreceive (agrees_receiveOffers _ _ _ _ _)
  · rw [listens_receiveOffers _ _ _ _ _ hreceive]
    right
    split at h
    · cases h
    · cases h
      exact ⟨List.append_nil _, fun other hother => by simpa using hother.symm⟩

theorem selected_of_admits {α : Type} [Algorithm α] {stage : Stage} {container : Container α}
    {x : KeyExchange} {limit : Nat} {noise : Noise} {a : α}
    (h : (select stage container x limit noise).Admits heard sent (.ok a)) :
    sent = offerList x noise container.supported ∧
      (records x noise container.supported).length = container.supported.length ∧
      ∃ theirs, (receiveOffers x limit).converse heard = some (theirs, [], []) ∧
        container.selectStrongest theirs = some a := by
  obtain ⟨theirs, hsend, hreceive, hselect⟩ := converse_select (converse_of_admits h [])
  rw [List.append_nil] at hsend hreceive
  rw [select_eq] at h
  obtain ⟨_, hcause, -⟩ | ⟨_, _, _, said, _, -, rfl, hspoken, h⟩ := admits_bind h
  · simp at hcause
  obtain ⟨-, -, hall⟩ := speaks_sendOffers _ _ _ _ _ _ hspoken
  have hquiet : Listens (receiveOffers x limit >>= fun theirs =>
      settle stage (container.selectStrongest theirs)) :=
    listens_bind (listens_receiveOffers x limit) fun _ => (speaks_settle _ _).listens
  refine ⟨?_, length_records hsend, theirs, hreceive, hselect⟩
  rw [hall () rfl, hquiet _ _ _ h, List.append_nil]

theorem agrees_obtainKeys (p : Party) (a : KeyExchangeAlgorithm) (noise : Noise) :
    (obtainKeys p a noise).Agrees :=
  agrees_keep (agrees_ofCrypto _)

theorem speaks_obtainKeys (p : Party) (a : KeyExchangeAlgorithm) (noise : Noise) :
    (obtainKeys p a noise).Speaks [] :=
  speaks_keep (speaks_ofCrypto _)

theorem agrees_exchangeKeys (p : Party) (a : KeyExchangeAlgorithm) (noise : Noise) :
    (exchangeKeys p a noise).Agrees :=
  agrees_bind (agrees_obtainKeys p a noise) fun _ => agrees_bind (agrees_ofCrypto _) fun own =>
    agrees_bind (agrees_sendField own) fun _ => agrees_bind (agrees_receiveField _) fun _ =>
      agrees_ofCrypto _

theorem admits_exchangeKeys {p : Party} {first : Bytes} {c : Chosen p first}
    {result : Except HandshakeError KeyExchange}
    (h : (exchangeKeys p c.keyExchange p.noise.even.even).Admits heard sent result) :
    (sent = [] ∧ ∀ x, result ≠ .ok x) ∨ ∃ k : Keyed c,
      (heard = [] ∧ sent <+: field k.text ∧ ∀ x, result ≠ .ok x) ∨
        (sent = field k.text ∧ ∀ x, result = .ok x →
          ∃ a : Accepted k heard, a.keys = x) := by
  have hspeaks := speaks_obtainKeys p c.keyExchange p.noise.even.even
  obtain ⟨_, rfl, hobtain⟩ | ⟨own, _, _, _, _, rfl, rfl, hobtain, hpublish⟩ := admits_bind h
  · exact .inl ⟨hspeaks.listens _ _ _ hobtain, nofun⟩
  obtain ⟨rfl, -, hnothing⟩ := hspeaks _ _ _ hobtain
  obtain rfl := hnothing own rfl
  obtain ⟨⟨files, hown⟩, -, -⟩ := converse_obtainKeys (converse_of_admits hobtain [])
  cases htext : own.publicKey with
  | error cause =>
    rw [htext] at hpublish
    cases hpublish
    exact .inl ⟨rfl, nofun⟩
  | ok text =>
    rw [htext] at hpublish
    let k : Keyed c := ⟨own, text, ⟨files, hown⟩, htext⟩
    refine .inr ⟨k, ?_⟩
    change (sendField text >>= fun _ => receiveField p.config.maxField >>= fun theirs =>
      ofCrypto (own.setPublicKey theirs)).Admits _ _ _ at hpublish
    obtain ⟨_, rfl, hsend⟩ | ⟨_, _, _, _, _, rfl, rfl, hsend, hexchange⟩ :=
      admits_bind hpublish
    · obtain ⟨hheard, hsent, -⟩ := speaks_sendField _ _ _ _ hsend
      exact .inl ⟨hheard, hsent, nofun⟩
    obtain ⟨rfl, -, hall⟩ := speaks_sendField _ _ _ _ hsend
    rw [hall () rfl]
    right
    obtain ⟨_, rfl, hreceive⟩ | ⟨theirs, _, _, _, _, rfl, rfl, hreceive, hset⟩ :=
      admits_bind hexchange
    · rw [listens_receiveField _ _ _ _ hreceive]
      exact ⟨List.append_nil _, nofun⟩
    obtain rfl := listens_receiveField _ _ _ _ hreceive
    obtain ⟨rfl, -, hnothing⟩ := speaks_ofCrypto _ _ _ _ hset
    have hhears := converse_of_admits hreceive []
    cases haccept : own.setPublicKey theirs with
    | error cause =>
      rw [haccept] at hset
      cases hset
      exact ⟨List.append_nil _, nofun⟩
    | ok keys =>
      rw [haccept] at hset
      cases hset
      refine ⟨List.append_nil _, ?_⟩
      rintro x ⟨⟩
      refine ⟨⟨theirs, keys, hhears, haccept, ?_⟩, rfl⟩
      intro size hsize
      rw [hsize] at hown
      exact KeyExchange.encrypt_of_accepted hown haccept

theorem agrees_exchangePackages (x : KeyExchange) (own : KeyPackage) (limit : Nat)
    (noise : Noise) : (exchangePackages x own limit noise).Agrees :=
  agrees_bind (agrees_ofCrypto _) fun record => agrees_bind (agrees_sendField record) fun _ =>
    agrees_bind (agrees_receiveField _) fun _ => agrees_bind (agrees_ofCrypto _) fun _ =>
      agrees_decode _

theorem admits_exchangePackages {x : KeyExchange} {own : KeyPackage} {limit : Nat} {noise : Noise}
    {result : Except HandshakeError KeyPackage}
    (h : (exchangePackages x own limit noise).Admits heard sent result) :
    (sent = [] ∧ ∀ package, result ≠ .ok package) ∨
      ∃ record, x.encrypt noise (Recorded.encode own) = .ok record ∧
        ((heard = [] ∧ sent <+: field record ∧ ∀ package, result ≠ .ok package) ∨
          sent = field record) := by
  cases hencrypt : x.encrypt noise (Recorded.encode own) with
  | error cause =>
    rw [exchangePackages, hencrypt] at h
    cases h
    exact .inl ⟨rfl, nofun⟩
  | ok record =>
    refine .inr ⟨record, rfl, ?_⟩
    rw [exchangePackages, hencrypt] at h
    change (sendField record >>= fun _ => receiveField limit >>= fun theirs =>
      ofCrypto (x.decrypt theirs) >>= decode).Admits _ _ _ at h
    obtain ⟨_, rfl, hsend⟩ | ⟨_, _, _, _, _, rfl, rfl, hsend, h⟩ := admits_bind h
    · obtain ⟨hheard, hsent, -⟩ := speaks_sendField _ _ _ _ hsend
      exact .inl ⟨hheard, hsent, nofun⟩
    · obtain ⟨-, -, hall⟩ := speaks_sendField _ _ _ _ hsend
      have hquiet : Listens (receiveField limit >>= fun theirs =>
          (ofCrypto (x.decrypt theirs) >>= decode : Dialogue KeyPackage)) :=
        listens_bind (listens_receiveField limit) fun _ =>
          listens_bind (speaks_ofCrypto _).listens fun _ => (speaks_decode _).listens
      rw [hall () rfl, hquiet _ _ _ h]
      exact .inr (List.append_nil _)

section

variable {p : Party} {first second third : Bytes} {c : Chosen p first} {k : Keyed c}
  {result : Except HandshakeError Link}

theorem agrees_conclude (p : Party) (a : KeyExchangeAlgorithm) (x : KeyExchange)
    (s : SymmetricAlgorithm) : (conclude p a x s).Agrees := by
  rw [conclude_eq]
  exact agrees_enter (agrees_bind (agrees_exchangePackages _ _ _ _) fun _ =>
    agrees_enter (agrees_bind (agrees_ofCrypto _) fun _ =>
      agrees_bind (agrees_ofCrypto _) fun _ => agrees_enter (agrees_done _)))

theorem disclosed_of_conclude {a : Accepted k second} (s : Settled a third)
    (h : (conclude p c.keyExchange a.keys s.symmetric).Admits heard sent result) :
    Disclosed p (first ++ second ++ third ++ heard)
      (plainOffers p ++ field k.text ++ sealedOffers p a.keys ++ sent) := by
  rw [conclude_eq] at h
  cases h with
  | enter h =>
    obtain ⟨_, -, hpackage⟩ | ⟨package, _, _, _, _, rfl, rfl, hpackage, hready⟩ := admits_bind h
    · obtain ⟨rfl, -⟩ | ⟨record, hrecord, ⟨rfl, hpart, -⟩ | rfl⟩ :=
        admits_exchangePackages hpackage
      · rw [List.append_nil, List.append_assoc]
        exact .listensForSymmetric a _
      · rw [List.append_nil]
        exact .package (s := s) ⟨record, hrecord⟩ hpart
      · exact .listensForPackage (s := s) ⟨record, hrecord⟩ _
    · obtain ⟨-, hnever⟩ | ⟨record, hrecord, ⟨-, -, hnever⟩ | rfl⟩ :=
        admits_exchangePackages hpackage
      · exact absurd rfl (hnever package)
      · exact absurd rfl (hnever package)
      cases hready with
      | enter hready =>
        obtain rfl := listens_bind (speaks_ofCrypto _).listens (fun _ =>
          listens_bind (speaks_ofCrypto _).listens fun _ =>
            (speaks_enter (speaks_done _)).listens) _ _ _ hready
        rw [List.append_nil]
        exact .listensForPackage (s := s) ⟨record, hrecord⟩ _

theorem discloses_of_proceed (c : Chosen p first)
    (h : (proceed p c.keyExchange).Admits heard sent result) :
    Discloses p (first ++ heard) (plainOffers p ++ sent) result := by
  rw [proceed_eq] at h
  cases h with
  | enter h =>
    obtain ⟨cause, rfl, hkeys⟩ | ⟨keys, _, _, _, _, rfl, rfl, hkeys, hsecond⟩ := admits_bind h
    · refine Disclosed.discloses ?_ ?_
      · obtain ⟨rfl, -⟩ | ⟨k, ⟨rfl, hpart, -⟩ | ⟨rfl, -⟩⟩ := admits_exchangeKeys hkeys
        · rw [List.append_nil]
          exact .listens _
        · rw [List.append_nil]
          exact .key k hpart
        · exact .listensForKey k _
      · rintro stage hstage
        obtain rfl := Except.error.inj hstage
        exact agrees_exchangeKeys _ _ _ _ _ _ hkeys
    obtain ⟨-, hnever⟩ | ⟨k, ⟨-, -, hnever⟩ | ⟨rfl, haccepted⟩⟩ := admits_exchangeKeys hkeys
    · exact absurd rfl (hnever keys)
    · exact absurd rfl (hnever keys)
    obtain ⟨a, rfl⟩ := haccepted keys rfl
    obtain ⟨cause, rfl, hselect⟩ | ⟨symmetric, _, _, _, _, rfl, rfl, hselect, hlast⟩ :=
      admits_bind hsecond
    · obtain ⟨rfl, hpart, hagrees⟩ | ⟨rfl, hstage⟩ := admits_select hselect
      · rw [List.append_nil, ← List.append_assoc]
        exact (Disclosed.symmetric a hpart).discloses fun stage hstage =>
          hagrees stage (Except.error.inj hstage)
      · rw [← List.append_assoc, ← List.append_assoc]
        refine ⟨.listensForSymmetric a _, ?_, fun _ => ⟨_, _, c, k, a, rfl⟩⟩
        intro hrefused
        cases hstage _ (Except.error.inj hrefused)
    obtain ⟨rfl, hencrypts, offers, hhears, hselects⟩ := selected_of_admits hselect
    have hdisclosed := disclosed_of_conclude ⟨offers, symmetric, hencrypts, hhears, hselects⟩ hlast
    simp only [List.append_assoc] at hdisclosed ⊢
    refine hdisclosed.discloses ?_
    rintro stage rfl
    exact agrees_conclude _ _ _ _ _ _ _ hlast

end

theorem discloses_of_admits {p : Party} {result : Except HandshakeError Link}
    (h : (dialogue p).Admits heard sent result) : Discloses p heard sent result := by
  have hplain : plainOffers p =
      offerList .identity p.noise.even.odd p.config.keyExchange.supported :=
    (offerList_identity _ _).symm
  rw [dialogue_eq] at h
  obtain ⟨cause, rfl, hselect⟩ | ⟨a, first, _, _, _, rfl, rfl, hselect, hproceed⟩ := admits_bind h
  · obtain ⟨rfl, hpart, hagrees⟩ | ⟨rfl, hstage⟩ := admits_select hselect
    · rw [← hplain] at hpart
      exact (Disclosed.offers hpart).discloses fun stage hstage =>
        hagrees stage (Except.error.inj hstage)
    · rw [← hplain]
      refine ⟨.listens heard, fun _ => rfl, ?_⟩
      intro hrefused
      cases hstage _ (Except.error.inj hrefused)
  · obtain ⟨rfl, -, offers, hhears, hselects⟩ := selected_of_admits hselect
    rw [← hplain]
    exact discloses_of_proceed ⟨offers, a, hhears, hselects⟩ hproceed

/-- Whatever the other side sends, and wherever its stream, the sink or the time comes
to an end, a handshake has disclosed no more than it may at the point where it stops. -/
theorem negotiate_discloses {p : Party} {source : Source} {sink : Sink}
    {ended : Dialogue.Ended Link}
    (h : ended = negotiate p source sink ∨ ∃ n, ended = negotiateWithin p n source sink) :
    ∃ heard sent, source.bytes = heard ++ ended.source.bytes ∧
      ended.sink.taken = sink.taken ++ sent ∧ Discloses p heard sent ended.result := by
  obtain ⟨heard, sent, hheard, hsent, hadmits⟩ := admits_of_negotiate h
  exact ⟨heard, sent, hheard, hsent, discloses_of_admits hadmits⟩

/-- Another side that offers no key exchange hears of those of the listener and nothing
more. -/
theorem negotiate_discloses_at :
    (negotiate listener [.data (Bytes.ofNat numberLength 0)] .endless).result =
        .error (.noCommonAlgorithm .keyExchange) ∧
      (negotiate listener [.data (Bytes.ofNat numberLength 0)] .endless).sink.taken =
        plainOffers listener := by
  have hrefused : (negotiate listener [.data (Bytes.ofNat numberLength 0)] .endless).result =
      .error (.noCommonAlgorithm .keyExchange) := by
    decide +kernel
  obtain ⟨heard, sent, -, hsent, hdiscloses⟩ := negotiate_discloses
    (.inl (Eq.refl (negotiate listener [.data (Bytes.ofNat numberLength 0)] .endless)))
  exact ⟨hrefused, hsent.trans (hdiscloses.keyExchange hrefused)⟩

end Handshake

end CipherLink
