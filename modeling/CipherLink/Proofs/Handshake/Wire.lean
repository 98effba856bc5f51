import CipherLink.Proofs.Handshake.Soundness
import CipherLink.Proofs.Interruptions

/-!
# A handshake on the wire

What each part of a handshake puts on the wire, as bytes: lists of offers, each of
them encrypted on its own, and fields. The other parts of a handshake listen, or do
neither.
-/

namespace CipherLink.Handshake

open Dialogue

def records (x : KeyExchange) (noise : Noise) : List Descriptor → List Bytes
  | [] => []
  | offer :: offers =>
    match x.encrypt noise.even (Recorded.encode offer) with
    | .ok record => record :: records x noise.odd offers
    | .error _ => []

def offerList (x : KeyExchange) (noise : Noise) (offers : List Descriptor) : Bytes :=
  Bytes.ofNat numberLength offers.length ++ (records x noise offers).flatMap field

theorem records_identity (noise : Noise) (offers : List Descriptor) :
    records .identity noise offers = offers.map Recorded.encode := by
  induction offers generalizing noise with
  | nil => rfl
  | cons offer offers ih => simp only [records, KeyExchange.encrypt, ih, List.map_cons]

theorem offerList_identity (noise : Noise) (offers : List Descriptor) :
    offerList .identity noise offers = Bytes.ofNat numberLength offers.length ++
      offers.flatMap fun offer => field (Recorded.encode offer) := by
  rw [offerList, records_identity, List.flatMap_map]

theorem agrees_sendNumber (n : Nat) : (sendNumber n).Agrees := by
  rw [sendNumber]
  split
  · exact agrees_failed (by simp)
  · exact agrees_send (agrees_done ())

theorem speaks_sendNumber (n : Nat) : (sendNumber n).Speaks (Bytes.ofNat numberLength n) := by
  rw [sendNumber]
  split
  · exact speaks_failed _ _
  · have h : (Dialogue.send (Bytes.ofNat numberLength n) (.done ())).Speaks
        (Bytes.ofNat numberLength n ++ []) := speaks_send (speaks_done ())
    rwa [List.append_nil] at h

theorem agrees_sendField (content : Bytes) : (sendField content).Agrees :=
  agrees_bind (agrees_sendNumber _) fun _ => agrees_send (agrees_flush (agrees_done ()))

theorem speaks_sendField (content : Bytes) : (sendField content).Speaks (field content) := by
  refine speaks_bind (speaks_sendNumber _) fun _ _ _ _ => ?_
  have h : (Dialogue.send content (.flush (.done ()))).Speaks (content ++ []) :=
    speaks_send (speaks_flush (speaks_done ()))
  rwa [List.append_nil] at h

theorem agrees_sendEach (x : KeyExchange) (noise : Noise) (offers : List Descriptor) :
    (sendEach x noise offers).Agrees := by
  induction offers generalizing noise with
  | nil => exact agrees_done ()
  | cons offer offers ih =>
    exact agrees_bind (agrees_ofCrypto _) fun record =>
      agrees_bind (agrees_sendField record) fun _ => ih noise.odd

theorem speaks_sendEach (x : KeyExchange) (noise : Noise) (offers : List Descriptor) :
    (sendEach x noise offers).Speaks ((records x noise offers).flatMap field) := by
  induction offers generalizing noise with
  | nil => exact speaks_done ()
  | cons offer offers ih =>
    rw [sendEach, records]
    cases x.encrypt noise.even (Recorded.encode offer) with
    | error cause => exact speaks_failed _ _
    | ok record =>
      change (sendField record >>= fun _ => sendEach x noise.odd offers).Speaks _
      exact speaks_bind (speaks_sendField record) fun _ _ _ _ => ih noise.odd

theorem agrees_sendOffers (x : KeyExchange) (noise : Noise) (offers : List Descriptor) :
    (sendOffers x noise offers).Agrees :=
  agrees_bind (agrees_sendNumber _) fun _ => agrees_sendEach x noise offers

theorem speaks_sendOffers (x : KeyExchange) (noise : Noise) (offers : List Descriptor) :
    (sendOffers x noise offers).Speaks (offerList x noise offers) :=
  speaks_bind (speaks_sendNumber _) fun _ _ _ _ => speaks_sendEach x noise offers

theorem length_records {x : KeyExchange} {noise : Noise} {offers : List Descriptor}
    {heard sent rest : Bytes} {u : Unit}
    (h : (sendOffers x noise offers).converse heard = some (u, sent, rest)) :
    (records x noise offers).length = offers.length := by
  obtain ⟨_, _, middle, last, -, heach, -⟩ := converse_bind_eq_some h
  clear h
  induction offers generalizing noise middle last with
  | nil => rfl
  | cons offer offers ih =>
    rw [sendEach] at heach
    obtain ⟨record, _, _, _, hrecord, hsend, -⟩ := converse_bind_eq_some heach
    obtain ⟨hencrypt, -⟩ := converse_ofCrypto hrecord
    obtain ⟨_, _, _, _, -, hothers, -⟩ := converse_bind_eq_some hsend
    simp only [records, hencrypt, List.length_cons, ih _ _ hothers]

theorem agrees_receiveNumber (limit : Nat) : (receiveNumber limit).Agrees := by
  refine agrees_receive fun bytes => ?_
  dsimp only
  split
  · exact agrees_failed (by simp)
  · split
    · exact agrees_failed (by simp)
    · exact agrees_done _

theorem listens_receiveNumber (limit : Nat) : (receiveNumber limit).Listens := by
  refine listens_receive fun bytes => ?_
  dsimp only
  split
  · exact (speaks_failed _ _).listens
  · split
    · exact (speaks_failed _ _).listens
    · exact (speaks_done _).listens

theorem agrees_receiveField (limit : Nat) : (receiveField limit).Agrees :=
  agrees_bind (agrees_receiveNumber _) fun _ => agrees_receive agrees_done

theorem listens_receiveField (limit : Nat) : (receiveField limit).Listens :=
  listens_bind (listens_receiveNumber _) fun _ =>
    listens_receive fun bytes => (speaks_done bytes).listens

theorem agrees_decode {α : Type} [Recorded α] (bs : Bytes) : (decode bs : Dialogue α).Agrees := by
  rw [decode]
  split
  · exact agrees_done _
  · exact agrees_failed (by simp)

theorem speaks_decode {α : Type} [Recorded α] (bs : Bytes) :
    (decode bs : Dialogue α).Speaks [] := by
  rw [decode]
  split
  · exact speaks_done _
  · exact speaks_failed _ _

theorem agrees_receiveEach (x : KeyExchange) (limit n : Nat) : (receiveEach x limit n).Agrees := by
  induction n with
  | zero => exact agrees_done []
  | succ n ih =>
    exact agrees_bind (agrees_receiveField _) fun _ => agrees_bind (agrees_ofCrypto _) fun _ =>
      agrees_bind (agrees_decode _) fun _ => agrees_bind ih fun _ => agrees_done _

theorem listens_receiveEach (x : KeyExchange) (limit n : Nat) :
    (receiveEach x limit n).Listens := by
  induction n with
  | zero => exact (speaks_done []).listens
  | succ n ih =>
    exact listens_bind (listens_receiveField _) fun _ =>
      listens_bind (speaks_ofCrypto _).listens fun _ =>
        listens_bind (speaks_decode _).listens fun _ =>
          listens_bind ih fun _ => (speaks_done _).listens

theorem agrees_receiveOffers (x : KeyExchange) (limit : Nat) : (receiveOffers x limit).Agrees :=
  agrees_bind (agrees_receiveNumber _) (agrees_receiveEach x limit)

theorem listens_receiveOffers (x : KeyExchange) (limit : Nat) :
    (receiveOffers x limit).Listens :=
  listens_bind (listens_receiveNumber _) (listens_receiveEach x limit)

def settle {α : Type} (stage : Stage) : Option α → Dialogue α
  | some a => .done a
  | none => .failed (.noCommonAlgorithm stage)

theorem speaks_settle {α : Type} (stage : Stage) (selected : Option α) :
    (settle stage selected).Speaks [] := by
  cases selected with
  | none => exact speaks_failed _ _
  | some a => exact speaks_done a

theorem select_eq {α : Type} [Algorithm α] (stage : Stage) (container : Container α)
    (x : KeyExchange) (limit : Nat) (noise : Noise) :
    select stage container x limit noise = sendOffers x noise container.supported >>= fun _ =>
      receiveOffers x limit >>= fun theirs => settle stage (container.selectStrongest theirs) := by
  have hsettle (selected : Option α) : settle stage selected =
      match selected with
      | some a => pure a
      | none => .failed (.noCommonAlgorithm stage) := by
    cases selected <;> rfl
  simp only [hsettle]
  rfl

def conclude (p : Party) (a : KeyExchangeAlgorithm) (x : KeyExchange) (s : SymmetricAlgorithm) :
    Dialogue Link := do
  .enter .offersExchanged (.done ())
  let block ← blockBytes s
  let own := s.drawPackage p.noise.odd.even
  let theirs ← exchangePackages x own p.config.maxField p.noise.odd.odd
  .enter .keysExchanged (.done ())
  let encryptor ← Dialogue.ofCrypto (s.encryptor own)
  let decryptor ← Dialogue.ofCrypto (s.decryptor theirs)
  .enter .ready (.done ⟨⟨a.descriptor, s.descriptor, block⟩, encryptor, decryptor⟩)

theorem blockBytes_eq (a : SymmetricAlgorithm) : blockBytes a = .done 16 := by
  have hblock : Frame.blockBytes? 128 = some 16 := rfl
  rw [blockBytes, show Frame.blockBytes? a.blockBits.toNat = some 16 from hblock]

theorem conclude_eq (p : Party) (a : KeyExchangeAlgorithm) (x : KeyExchange)
    (s : SymmetricAlgorithm) : conclude p a x s = .enter .offersExchanged
      (exchangePackages x (s.drawPackage p.noise.odd.even) p.config.maxField p.noise.odd.odd >>=
        fun theirs => .enter .keysExchanged
          (ofCrypto (s.encryptor (s.drawPackage p.noise.odd.even)) >>= fun encryptor =>
            ofCrypto (s.decryptor theirs) >>= fun decryptor =>
              .enter .ready (.done ⟨⟨a.descriptor, s.descriptor, 16⟩, encryptor, decryptor⟩))) := by
  rw [conclude, blockBytes_eq]
  rfl

def proceed (p : Party) (a : KeyExchangeAlgorithm) : Dialogue Link := do
  .enter .keyExchangeSelected (.done ())
  let x ← exchangeKeys p a p.noise.even.even
  let s ← select .symmetric p.config.symmetric x p.config.maxField p.noise.even.odd
  conclude p a x s

theorem proceed_eq (p : Party) (a : KeyExchangeAlgorithm) :
    proceed p a = .enter .keyExchangeSelected (exchangeKeys p a p.noise.even.even >>= fun x =>
      select .symmetric p.config.symmetric x p.config.maxField p.noise.even.odd >>=
        conclude p a x) := rfl

theorem dialogue_eq (p : Party) : dialogue p =
    select .keyExchange p.config.keyExchange .identity p.config.maxField p.noise.even.odd >>=
      proceed p := rfl

/-- A handshake takes from its source and gives to its sink what the dialogue admits, also
when the time runs out. -/
theorem admits_of_negotiate {p : Party} {source : Source} {sink : Sink}
    {ended : Dialogue.Ended Link}
    (h : ended = negotiate p source sink ∨ ∃ n, ended = negotiateWithin p n source sink) :
    ∃ heard sent, source.bytes = heard ++ ended.source.bytes ∧
      ended.sink.taken = sink.taken ++ sent ∧ (dialogue p).Admits heard sent ended.result := by
  rcases h with rfl | ⟨n, rfl⟩
  · exact admits_run p.config.handshakeTimeout (dialogue p) .start p.files source sink
  · obtain ⟨heard, sent, hheard, hsent, hadmits⟩ :=
      admits_run p.config.handshakeTimeout ((dialogue p).expire p.config.handshakeTimeout n)
        .start p.files source sink
    exact ⟨heard, sent, hheard, hsent, admits_of_expire hadmits⟩

end CipherLink.Handshake
