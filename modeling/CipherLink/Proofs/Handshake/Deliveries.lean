import CipherLink.Proofs.Confluence
import CipherLink.Proofs.Handshake.Transmission
import CipherLink.Proofs.Handshake.Wire

/-!
# What is said is heard

Each part of a handshake that writes can be carried through, if the lengths can be
written and everything can be encrypted. What it has written is heard by the same part
of the other side, if that one accepts the lengths and has the keys; nothing is left
over. So two sides that first speak and then listen come to the same place together.
-/

namespace CipherLink

namespace Dialogue

variable {α β γ : Type} {a : α} {b : β} {bytes more : Bytes}

theorem bind_done (d : Dialogue α) : d.bind .done = d := by
  induction d with
  | done result => rfl
  | failed cause => rfl
  | send bytes next ih => simp only [bind, ih]
  | flush next ih => simp only [bind, ih]
  | receive awaited n next ih => simp only [bind, ih]
  | enter phase next ih => simp only [bind, ih]
  | keep files next ih => simp only [bind, ih]

theorem bind_bind (d : Dialogue α) (f : α → Dialogue β) (g : β → Dialogue γ) :
    (d.bind f).bind g = d.bind fun a => (f a).bind g := by
  induction d with
  | done result => rfl
  | failed cause => rfl
  | send bytes next ih => simp only [bind, ih]
  | flush next ih => simp only [bind, ih]
  | receive awaited n next ih => simp only [bind, ih]
  | enter phase next ih => simp only [bind, ih]
  | keep files next ih => simp only [bind, ih]

instance : LawfulMonad Dialogue :=
  LawfulMonad.mk' Dialogue bind_done (fun _ _ => rfl) bind_bind

/-- Whether a dialogue hears just these bytes, writes the others and is done. -/
def Answers (d : Dialogue α) (heard sent : Bytes) (a : α) : Prop :=
  ∀ more, d.converse (heard ++ more) = some (a, sent, more)

/-- Whether a dialogue writes these bytes and hears nothing. -/
def Says (d : Dialogue α) (bytes : Bytes) (a : α) : Prop :=
  ∀ heard, d.converse heard = some (a, bytes, heard)

def Hears (d : Dialogue α) (bytes : Bytes) (a : α) : Prop :=
  ∀ more, d.converse (bytes ++ more) = some (a, [], more)

theorem Says.answers {d : Dialogue α} (h : d.Says bytes a) : d.Answers [] bytes a := h

theorem Hears.answers {d : Dialogue α} (h : d.Hears bytes a) : d.Answers bytes [] a := h

section

variable {d : Dialogue α} {f : α → Dialogue β} {heard heard' sent sent' : Bytes}

theorem answers_bind (h : d.Answers heard sent a) (hf : (f a).Answers heard' sent' b) :
    (d >>= f).Answers (heard ++ heard') (sent ++ sent') b := by
  intro more
  rw [converse_bind, List.append_assoc, h, Option.bind_some]
  simp only [hf more, Option.map_some]

theorem Says.before (h : d.Says bytes a) (hf : (f a).Answers heard sent b) :
    (d >>= f).Answers heard (bytes ++ sent) b :=
  answers_bind h.answers hf

theorem Hears.before (h : d.Hears bytes a) (hf : (f a).Answers heard sent b) :
    (d >>= f).Answers (bytes ++ heard) sent b :=
  answers_bind h.answers hf

theorem Says.silently (h : d.Says [] a) (hf : (f a).Answers heard sent b) :
    (d >>= f).Answers heard sent b :=
  answers_bind h.answers hf

end

theorem says_done (a : α) : (done a).Says [] a := fun _ => rfl

theorem Says.hears {d : Dialogue α} (h : d.Says [] a) : d.Hears [] a := h

theorem says_ofCrypto {x : Except CryptoError α} (h : x = .ok a) : (ofCrypto x).Says [] a := by
  rw [h]
  exact says_done a

theorem says_send {next : Dialogue α} (h : next.Says more a) :
    (send bytes next).Says (bytes ++ more) a := by
  intro heard
  rw [converse, h, Option.map_some]

theorem says_bind {d : Dialogue α} {f : α → Dialogue β} (h : d.Says bytes a)
    (hf : (f a).Says more b) : (d >>= f).Says (bytes ++ more) b :=
  h.before hf.answers

theorem hears_bind {d : Dialogue α} {f : α → Dialogue β} (h : d.Hears bytes a)
    (hf : (f a).Hears more b) : (d >>= f).Hears (bytes ++ more) b :=
  h.before hf.answers

theorem hears_receive (awaited : Awaited) {next : Bytes → Dialogue α}
    (h : (next bytes).Hears more a) :
    (receive awaited bytes.length next).Hears (bytes ++ more) a := by
  intro rest
  rw [converse, List.append_assoc, Bytes.split?_append]
  exact h rest

/-- Whether two sides with nothing unread get from the first two dialogues to the other
two, again with nothing unread. -/
def Together (d d' e e' : Dialogue α) : Prop :=
  ∀ phase phase' files files', ∃ n reached reached' kept kept',
    Pair.Leads ⟨⟨d, phase, files, []⟩, ⟨d', phase', files', []⟩⟩ n
      ⟨⟨e, reached, kept, []⟩, ⟨e', reached', kept', []⟩⟩

theorem Together.trans {d d' e e' f f' : Dialogue α} (h : Together d d' e e')
    (h' : Together e e' f f') : Together d d' f f' := by
  intro phase phase' files files'
  obtain ⟨_, reached, reached', kept, kept', hleads⟩ := h phase phase' files files'
  obtain ⟨_, last, last', left, left', hleads'⟩ := h' reached reached' kept kept'
  obtain ⟨n, hall⟩ := hleads.trans hleads'
  exact ⟨n, last, last', left, left', hall⟩

theorem together_of_exchange {say say' : Dialogue Unit} {hear hear' : Dialogue β} {c c' : β}
    {said said' : Bytes} (hsay : say.Says said ()) (hsay' : say'.Says said' ())
    (hhear : hear.Hears said' c) (hhear' : hear'.Hears said c')
    (hwaits : ∃ awaited n next, hear = .receive awaited n next)
    (hwaits' : ∃ awaited n next, hear' = .receive awaited n next) (f f' : β → Dialogue α) :
    Together (say >>= fun _ => hear >>= f) (say' >>= fun _ => hear' >>= f') (f c) (f' c') := by
  intro phase phase' files files'
  obtain ⟨spoken, told, hspeak⟩ := Side.runs_of_converse (hsay []) (fun _ => hear >>= f) phase files
  obtain ⟨spoken', told', hspeak'⟩ :=
    Side.runs_of_converse (hsay' []) (fun _ => hear' >>= f') phase' files'
  obtain ⟨reached, kept, hlisten⟩ := Side.runs_of_converse (hhear []) f spoken told
  obtain ⟨reached', kept', hlisten'⟩ := Side.runs_of_converse (hhear' []) f' spoken' told'
  obtain ⟨awaited, n, next, rfl⟩ := hwaits
  obtain ⟨awaited', n', next', rfl⟩ := hwaits'
  rw [List.append_nil] at hlisten hlisten'
  obtain ⟨m, hleads⟩ := Pair.exists_leads_of_exchange hspeak hspeak' rfl rfl hlisten hlisten'
  exact ⟨m, reached, reached', kept, kept', hleads⟩

theorem together_of_says {say say' : Dialogue β} {b b' : β} (h : say.Says [] b)
    (h' : say'.Says [] b') (f f' : β → Dialogue α) :
    Together (say >>= f) (say' >>= f') (f b) (f' b') := by
  intro phase phase' files files'
  obtain ⟨reached, kept, hruns⟩ := Side.runs_of_converse (h []) f phase files
  obtain ⟨reached', kept', hruns'⟩ := Side.runs_of_converse (h' []) f' phase' files'
  obtain ⟨n, hleads⟩ := Pair.exists_leads_of_silence hruns hruns'
  exact ⟨n, reached, reached', kept, kept', hleads⟩

theorem together_enter (phase phase' : Phase) (d d' : Dialogue α) :
    Together (.enter phase d) (.enter phase' d') d d' := by
  have hsilent (phase : Phase) : (enter phase (done ())).Says [] () := fun _ => rfl
  exact together_of_says (hsilent phase) (hsilent phase') (fun _ => d) (fun _ => d')

theorem together_keep (files files' : KeyFiles) (d d' : Dialogue α) :
    Together (.keep files d) (.keep files' d') d d' := by
  have hsilent (files : KeyFiles) : (keep files (done ())).Says [] () := fun _ => rfl
  exact together_of_says (hsilent files) (hsilent files') (fun _ => d) (fun _ => d')

/-- Whether a side with this dialogue and nothing unread comes to a result and a phase
by itself, and stays there. -/
def ComesTo (d : Dialogue α) (result : Except HandshakeError α) (phase : Phase) : Prop :=
  ∀ first files, ∃ last, Side.Runs ⟨d, first, files, []⟩ [] last ∧ last.result? = some result ∧
    last.phase = phase ∧ last.advance? = none ∧ last.inbox = []

theorem comesTo_failed (cause : HandshakeError) :
    (failed cause : Dialogue α).ComesTo (.error cause) .failed := by
  intro first files
  by_cases hphase : first = .failed
  · subst hphase
    exact ⟨_, .refl _, rfl, rfl, rfl, rfl⟩
  · have hadvance : (Side.mk (failed cause : Dialogue α) first files []).advance? =
        some (⟨.failed cause, .failed, files, []⟩, []) := by
      simp only [Side.advance?, hphase, if_false]
      rfl
    exact ⟨_, .step hadvance (.refl _), rfl, rfl, rfl, rfl⟩

theorem comesTo_enter (phase : Phase) (a : α) : (enter phase (done a)).ComesTo (.ok a) phase := by
  intro first files
  exact ⟨_, .silent rfl (.refl _), rfl, rfl, rfl, rfl⟩

theorem isOver_of_result? {s : Side α} {result : Except HandshakeError α}
    (h : s.result? = some result) : s.isOver = true := by
  rw [Side.result?] at h
  rw [Side.isOver]
  split at h <;> simp_all

theorem Together.settles {d d' e e' : Dialogue α} {result result' : Except HandshakeError α}
    {phase phase' : Phase} (h : Together d d' e e') (he : e.ComesTo result phase)
    (he' : e'.ComesTo result' phase') (files files' : KeyFiles) :
    ∃ last, (Pair.mk (.start files d) (.start files' d')).Settles last ∧
      (last.left.result? = some result ∧ last.left.phase = phase) ∧
      last.right.result? = some result' ∧ last.right.phase = phase' := by
  obtain ⟨_, reached, reached', kept, kept', hleads⟩ := h .start .start files files'
  obtain ⟨l, hl, hresult, hphase, hstuck, hread⟩ := he reached kept
  obtain ⟨r, hr, hresult', hphase', hstuck', hread'⟩ := he' reached' kept'
  obtain ⟨_, hends⟩ := Pair.exists_leads_of_silence hl hr
  obtain ⟨_, hall⟩ := hleads.trans hends
  have hquiet : (Pair.mk l r).Quiet := by
    refine ⟨?_, ?_, ?_⟩
    · rintro (_ | _)
      · exact isOver_of_result? hresult
      · exact isOver_of_result? hresult'
    · rintro (_ | _)
      · exact hstuck
      · exact hstuck'
    · rintro (_ | _)
      · exact hread
      · exact hread'
  exact ⟨⟨l, r⟩, hall.settles hquiet, ⟨hresult, hphase⟩, hresult', hphase'⟩

end Dialogue

namespace Handshake

open Dialogue

variable {limit : Nat} {x y : KeyExchange} {noise : Noise}

def Fits (limit : Nat) (content : Bytes) : Prop :=
  content.length ≤ Frame.greatestLength ∧ content.length ≤ limit

theorem says_sendNumber {n : Nat} (h : n ≤ Frame.greatestLength) :
    (sendNumber n).Says (Bytes.ofNat numberLength n) () := by
  rw [sendNumber, if_neg (Nat.not_lt.mpr h)]
  have hsend : (Dialogue.send (Bytes.ofNat numberLength n) (.done ())).Says
      (Bytes.ofNat numberLength n ++ []) () := says_send (says_done ())
  rwa [List.append_nil] at hsend

theorem says_sendField {content : Bytes} (h : content.length ≤ Frame.greatestLength) :
    (sendField content).Says (field content) () := by
  refine says_bind (says_sendNumber h) ?_
  have hsend : (Dialogue.send content (.flush (.done ()))).Says (content ++ []) () :=
    says_send (says_done ())
  rwa [List.append_nil] at hsend

theorem hears_receiveNumber {n : Nat} (h : n ≤ Frame.greatestLength) (hlimit : n ≤ limit) :
    (receiveNumber limit).Hears (Bytes.ofNat numberLength n) n := by
  have hbound : 2 * n < 256 ^ numberLength := by
    simp only [Frame.greatestLength, numberLength] at h ⊢
    omega
  intro more
  simp only [receiveNumber, converse, Cbor.Header.split?_ofNat, Bytes.toInt_ofNat hbound]
  rw [if_neg (by omega), if_neg (by omega)]
  rfl

theorem hears_receiveField {content : Bytes} (h : Fits limit content) :
    (receiveField limit).Hears (field content) content := by
  refine hears_bind (hears_receiveNumber h.1 h.2) ?_
  have hcontent : (Dialogue.receive .content content.length .done).Hears (content ++ []) content :=
    hears_receive .content (says_done content).hears
  rwa [List.append_nil] at hcontent

theorem waits_receiveField (limit : Nat) :
    ∃ awaited n next, receiveField limit = .receive awaited n next := ⟨_, _, _, rfl⟩

structure Audible (x y : KeyExchange) (noise : Noise) (offers : List Descriptor) (limit : Nat) :
    Prop where
  opens : y.Opens x
  encrypts : (records x noise offers).length = offers.length
  few : offers.length ≤ maxOffers
  writable : ∀ offer ∈ offers, Recorded.Writable offer
  fits : ∀ record ∈ records x noise offers, Fits limit record

theorem says_sendEach {offers : List Descriptor}
    (hencrypts : (records x noise offers).length = offers.length)
    (hfits : ∀ record ∈ records x noise offers, Fits limit record) :
    (sendEach x noise offers).Says ((records x noise offers).flatMap field) () := by
  induction offers generalizing noise with
  | nil => exact says_done ()
  | cons offer offers ih =>
    rw [records] at hencrypts hfits ⊢
    rw [sendEach]
    cases hrecord : x.encrypt noise.even (Recorded.encode offer) with
    | error cause => simp [hrecord] at hencrypts
    | ok record =>
      simp only [hrecord, List.length_cons, Nat.add_right_cancel_iff, List.mem_cons,
        forall_eq_or_imp] at hencrypts hfits
      rw [List.flatMap_cons, ← List.nil_append (field record ++ _)]
      exact says_bind (says_ofCrypto rfl)
        (says_bind (says_sendField hfits.1.1) (ih hencrypts hfits.2))

theorem hears_receiveEach (hopens : y.Opens x) {offers : List Descriptor}
    (hencrypts : (records x noise offers).length = offers.length)
    (hwritable : ∀ offer ∈ offers, Recorded.Writable offer)
    (hfits : ∀ record ∈ records x noise offers, Fits limit record) :
    (receiveEach y limit offers.length).Hears ((records x noise offers).flatMap field) offers := by
  induction offers generalizing noise with
  | nil => exact (says_done []).hears
  | cons offer offers ih =>
    rw [records] at hencrypts hfits ⊢
    rw [List.length_cons, receiveEach]
    cases hrecord : x.encrypt noise.even (Recorded.encode offer) with
    | error cause => simp [hrecord] at hencrypts
    | ok record =>
      simp only [hrecord, List.length_cons, Nat.add_right_cancel_iff, List.mem_cons,
        forall_eq_or_imp] at hencrypts hfits hwritable
      have hdecode : (decode (Recorded.encode offer)).Says [] offer := by
        rw [decode_record hwritable.1]
        exact says_done offer
      have hothers := hears_bind (f := fun others => pure (offer :: others))
        (ih hencrypts hwritable.2 hfits.2) (says_done _).hears
      rw [List.append_nil] at hothers
      exact hears_bind (hears_receiveField hfits.1)
        (hears_bind (says_ofCrypto (hopens _ _ _ hrecord)).hears (hears_bind hdecode.hears hothers))

theorem Audible.length_le {offers : List Descriptor} (h : Audible x y noise offers limit) :
    offers.length ≤ Frame.greatestLength :=
  Nat.le_trans h.few (by decide)

theorem says_sendOffers {offers : List Descriptor} (h : Audible x y noise offers limit) :
    (sendOffers x noise offers).Says (offerList x noise offers) () :=
  says_bind (says_sendNumber h.length_le) (says_sendEach h.encrypts h.fits)

theorem hears_receiveOffers {offers : List Descriptor} (h : Audible x y noise offers limit) :
    (receiveOffers y limit).Hears (offerList x noise offers) offers :=
  hears_bind (hears_receiveNumber h.length_le h.few)
    (hears_receiveEach h.opens h.encrypts h.writable h.fits)

theorem together_select {α β : Type} [Algorithm α] {stage : Stage} {c c' : Container α}
    {x x' : KeyExchange} {limit limit' : Nat} {noise noise' : Noise}
    (h : Audible x x' noise c.supported limit') (h' : Audible x' x noise' c'.supported limit)
    (f f' : α → Dialogue β) :
    Together (select stage c x limit noise >>= f) (select stage c' x' limit' noise' >>= f')
      (settle stage (c.selectStrongest c'.supported) >>= f)
      (settle stage (c'.selectStrongest c.supported) >>= f') := by
  rw [select_eq, select_eq, bind_assoc, bind_assoc]
  simp only [bind_assoc]
  exact together_of_exchange (says_sendOffers h) (says_sendOffers h') (hears_receiveOffers h')
    (hears_receiveOffers h) ⟨_, _, _, rfl⟩ ⟨_, _, _, rfl⟩
    (fun theirs => settle stage (c.selectStrongest theirs) >>= f)
    (fun theirs => settle stage (c'.selectStrongest theirs) >>= f')

end Handshake

end CipherLink
