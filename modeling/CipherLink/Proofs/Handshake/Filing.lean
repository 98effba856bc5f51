import CipherLink.Handshake.Meeting
import CipherLink.Proofs.Handshake.Wire

/-!
# What a handshake does to key files

A handshake writes key files at one point only, when it generates keys for the key
exchange that it has selected. The selection itself goes the same way whatever the
files are, and nothing behind it changes them again.
-/

namespace CipherLink

namespace Dialogue

variable {α β : Type}

def SparesFiles : Dialogue α → Prop
  | .done _ | .failed _ => True
  | .send _ next | .flush next | .enter _ next => next.SparesFiles
  | .receive _ _ next => ∀ bytes, (next bytes).SparesFiles
  | .keep _ _ => False

theorem sparesFiles_ofCrypto (x : Except CryptoError α) : (ofCrypto x).SparesFiles := by
  cases x <;> trivial

theorem sparesFiles_bind {d : Dialogue α} {f : α → Dialogue β} (h : d.SparesFiles)
    (hf : ∀ a, (f a).SparesFiles) : (d >>= f).SparesFiles := by
  change (d.bind f).SparesFiles
  induction d with
  | done result => exact hf result
  | failed cause => trivial
  | send bytes next ih => exact ih h
  | flush next ih => exact ih h
  | receive awaited n next ih => exact fun bytes => ih bytes (h bytes)
  | enter phase next ih => exact ih h
  | keep files next ih => exact h.elim

theorem sparesFiles_expire {elapsed : Duration} {n : Nat} {d : Dialogue α} (h : d.SparesFiles) :
    (d.expire elapsed n).SparesFiles := by
  induction d generalizing n with
  | done result => simp only [expire, SparesFiles]
  | failed cause => simp only [expire, SparesFiles]
  | send bytes next ih =>
    cases n with
    | zero => trivial
    | succ n => exact ih h
  | flush next ih =>
    cases n with
    | zero => trivial
    | succ n => exact ih h
  | receive awaited length next ih =>
    cases n with
    | zero => trivial
    | succ n => exact fun bytes => ih bytes (h bytes)
  | enter phase next ih =>
    simp only [expire]
    exact ih h
  | keep files next ih => exact h.elim

theorem files_run {d : Dialogue α} (h : d.SparesFiles) (patience : Duration) (phase : Phase)
    (files : KeyFiles) (source : Source) (sink : Sink) :
    (d.run patience phase files source sink).files = files := by
  induction d generalizing phase source sink with
  | done result => rfl
  | failed cause => rfl
  | send bytes next ih =>
    simp only [run]
    split
    · exact ih h _ _ _
    · rfl
  | flush next ih =>
    simp only [run]
    split
    · exact ih h _ _ _
    · rfl
  | receive awaited n next ih =>
    simp only [run]
    split
    · exact ih _ (h _) _ _ _
    · rfl
    · rfl
    · rfl
  | enter reached next ih => exact ih h _ _ _
  | keep kept next ih => exact h.elim

theorem result_run_eq (d : Dialogue α) (patience : Duration) (phase : Phase)
    (files files' : KeyFiles) (source : Source) (sink : Sink) :
    (d.run patience phase files source sink).result =
      (d.run patience phase files' source sink).result := by
  induction d generalizing phase files files' source sink with
  | done result => rfl
  | failed cause => rfl
  | send bytes next ih =>
    simp only [run]
    split
    · exact ih _ _ _ _ _
    · rfl
  | flush next ih =>
    simp only [run]
    split
    · exact ih _ _ _ _ _
    · rfl
  | receive awaited n next ih =>
    simp only [run]
    split
    · exact ih _ _ _ _ _ _
    · rfl
    · rfl
    · rfl
  | enter reached next ih => exact ih _ _ _ _ _
  | keep kept next ih => rfl

/-- A dialogue that goes on with another one within a number of operations: either it
fails and the other one never begins, or the other one has what is left of the
operations and of the stream. -/
theorem run_expire_bind (d : Dialogue α) (f : α → Dialogue β) (patience elapsed : Duration)
    (n : Nat) (phase : Phase) (files : KeyFiles) (source : Source) (sink : Sink) :
    (∃ cause,
      ((d.expire elapsed n).run patience phase files source sink).result = .error cause ∧
      (((d >>= f).expire elapsed n).run patience phase files source sink).result = .error cause ∧
      (((d >>= f).expire elapsed n).run patience phase files source sink).files =
        ((d.expire elapsed n).run patience phase files source sink).files) ∨
    ∃ a m phase' source' sink',
      ((d.expire elapsed n).run patience phase files source sink).result = .ok a ∧
      ((d >>= f).expire elapsed n).run patience phase files source sink =
        ((f a).expire elapsed m).run patience phase'
          ((d.expire elapsed n).run patience phase files source sink).files source' sink' := by
  change (∃ cause, _ ∧ (((d.bind f).expire elapsed n).run _ _ _ _ _).result = _ ∧
    (((d.bind f).expire elapsed n).run _ _ _ _ _).files = _) ∨
      ∃ a m phase' source' sink', _ ∧ ((d.bind f).expire elapsed n).run _ _ _ _ _ = _
  -- Each operation is the same one in both dialogues, so it fails in both or in neither.
  induction d generalizing n phase files source sink with
  | done result =>
    simp only [expire, run]
    exact .inr ⟨result, n, phase, source, sink, rfl, rfl⟩
  | failed cause =>
    simp only [bind, expire, run]
    exact .inl ⟨cause, rfl, rfl, trivial⟩
  | send bytes next ih =>
    cases n with
    | zero => exact .inl ⟨_, rfl, rfl, rfl⟩
    | succ n =>
      simp only [bind, expire, run]
      split
      · exact ih n phase files source _
      · exact .inl ⟨_, rfl, rfl, rfl⟩
  | flush next ih =>
    cases n with
    | zero => exact .inl ⟨_, rfl, rfl, rfl⟩
    | succ n =>
      simp only [bind, expire, run]
      split
      · exact ih n phase files source sink
      · exact .inl ⟨_, rfl, rfl, rfl⟩
  | receive awaited length next ih =>
    cases n with
    | zero => exact .inl ⟨_, rfl, rfl, rfl⟩
    | succ n =>
      simp only [bind, expire, run]
      split
      · exact ih _ n phase files _ sink
      · exact .inl ⟨_, rfl, rfl, rfl⟩
      · exact .inl ⟨_, rfl, rfl, rfl⟩
      · exact .inl ⟨_, rfl, rfl, rfl⟩
  | enter reached next ih =>
    simp only [bind, expire, run]
    exact ih n reached files source sink
  | keep kept next ih =>
    simp only [bind, expire, run]
    exact ih n phase kept source sink

end Dialogue

namespace Handshake

open Dialogue

theorem sparesFiles_sendNumber (n : Nat) : (sendNumber n).SparesFiles := by
  rw [sendNumber]
  split <;> trivial

theorem sparesFiles_sendField (content : Bytes) : (sendField content).SparesFiles :=
  sparesFiles_bind (sparesFiles_sendNumber _) fun _ => trivial

theorem sparesFiles_sendEach (x : KeyExchange) (noise : Noise) (offers : List Descriptor) :
    (sendEach x noise offers).SparesFiles := by
  induction offers generalizing noise with
  | nil => trivial
  | cons offer offers ih =>
    exact sparesFiles_bind (sparesFiles_ofCrypto _) fun record =>
      sparesFiles_bind (sparesFiles_sendField record) fun _ => ih noise.odd

theorem sparesFiles_receiveNumber (limit : Nat) : (receiveNumber limit).SparesFiles := by
  intro bytes
  dsimp only
  split
  · trivial
  · split <;> trivial

theorem sparesFiles_receiveField (limit : Nat) : (receiveField limit).SparesFiles :=
  sparesFiles_bind (sparesFiles_receiveNumber _) fun _ _ => trivial

theorem sparesFiles_decode {α : Type} [Recorded α] (bs : Bytes) :
    (decode bs : Dialogue α).SparesFiles := by
  rw [decode]
  split <;> trivial

theorem sparesFiles_receiveEach (x : KeyExchange) (limit n : Nat) :
    (receiveEach x limit n).SparesFiles := by
  induction n with
  | zero => trivial
  | succ n ih =>
    exact sparesFiles_bind (sparesFiles_receiveField _) fun _ =>
      sparesFiles_bind (sparesFiles_ofCrypto _) fun _ =>
        sparesFiles_bind (sparesFiles_decode _) fun _ => sparesFiles_bind ih fun _ => trivial

theorem sparesFiles_select {α : Type} [Algorithm α] (stage : Stage) (container : Container α)
    (x : KeyExchange) (limit : Nat) (noise : Noise) :
    (select stage container x limit noise).SparesFiles := by
  have hsettle (selected : Option α) : (settle stage selected).SparesFiles := by
    cases selected <;> trivial
  rw [select_eq]
  exact sparesFiles_bind (sparesFiles_bind (sparesFiles_sendNumber _) fun _ =>
    sparesFiles_sendEach x noise _) fun _ =>
      sparesFiles_bind (sparesFiles_bind (sparesFiles_receiveNumber _)
        (sparesFiles_receiveEach x limit)) fun _ => hsettle _

theorem sparesFiles_conclude (p : Party) (a : KeyExchangeAlgorithm) (x : KeyExchange)
    (s : SymmetricAlgorithm) : (conclude p a x s).SparesFiles := by
  have hpackages (own : KeyPackage) :
      (exchangePackages x own p.config.maxField p.noise.odd.odd).SparesFiles :=
    sparesFiles_bind (sparesFiles_ofCrypto _) fun _ =>
      sparesFiles_bind (sparesFiles_sendField _) fun _ =>
        sparesFiles_bind (sparesFiles_receiveField _) fun _ =>
          sparesFiles_bind (sparesFiles_ofCrypto _) fun _ => sparesFiles_decode _
  rw [conclude_eq]
  exact sparesFiles_bind (hpackages _) fun _ => sparesFiles_bind (sparesFiles_ofCrypto _) fun _ =>
    sparesFiles_bind (sparesFiles_ofCrypto _) fun _ => trivial

theorem exists_proceed (p : Party) (a : KeyExchangeAlgorithm)
    {outcome : Except CryptoError Unit} {own : KeyExchange} {files : KeyFiles}
    (h : (KeyExchange.start a p.config.keyLifetime).generateKeys p.files p.noise.even.even =
      (outcome, own, files)) :
    ∃ publish : KeyExchange → Dialogue Link, (∀ x, (publish x).SparesFiles) ∧
      proceed p a = .enter .keyExchangeSelected (.keep files
        (ofCrypto (outcome.map fun _ => own) >>= publish)) := by
  refine ⟨fun keyed => (ofCrypto keyed.publicKey >>= fun text => sendField text >>= fun _ =>
    receiveField p.config.maxField >>= fun theirs => ofCrypto (keyed.setPublicKey theirs)) >>=
      fun x => select .symmetric p.config.symmetric x p.config.maxField p.noise.even.odd >>=
        conclude p a x, ?_, ?_⟩
  · intro keyed
    refine sparesFiles_bind ?_ fun x =>
      sparesFiles_bind (sparesFiles_select _ _ _ _ _) (sparesFiles_conclude p a x)
    exact sparesFiles_bind (sparesFiles_ofCrypto _) fun _ =>
      sparesFiles_bind (sparesFiles_sendField _) fun _ =>
        sparesFiles_bind (sparesFiles_receiveField _) fun _ => sparesFiles_ofCrypto _
  · rw [proceed_eq, exchangeKeys, obtainKeys, h]
    cases outcome <;> rfl

end Handshake

namespace Visit

variable {v : Visit} {config : LinkConfig} {files : KeyFiles}

theorem handshake_cases (v : Visit) (config : LinkConfig) (files : KeyFiles) :
    (v.selected? config = none ∧ (v.handshake config files).files = files) ∨
      ∃ a m phase source sink, v.selected? config = some a ∧ v.handshake config files =
        ((Handshake.proceed ⟨config, files, v.noise⟩ a).expire config.handshakeTimeout m).run
          config.handshakeTimeout phase files source sink := by
  have hspares : ((v.selection config).expire config.handshakeTimeout v.operations).SparesFiles :=
    Dialogue.sparesFiles_expire (Handshake.sparesFiles_select _ _ _ _ _)
  have hfiles := Dialogue.files_run hspares config.handshakeTimeout .start files v.source v.sink
  have hdialogue : v.handshake config files =
      ((v.selection config >>= Handshake.proceed ⟨config, files, v.noise⟩).expire
        config.handshakeTimeout v.operations).run config.handshakeTimeout .start files v.source
        v.sink := rfl
  rw [selected?, Dialogue.result_run_eq _ _ _ .empty files, hdialogue]
  obtain ⟨cause, hresult, -, hfailed⟩ | ⟨a, m, phase, source, sink, hresult, hrun⟩ :=
    Dialogue.run_expire_bind (v.selection config) (Handshake.proceed ⟨config, files, v.noise⟩)
      config.handshakeTimeout config.handshakeTimeout v.operations .start files v.source v.sink
  · exact .inl ⟨by rw [hresult]; rfl, hfailed.trans hfiles⟩
  · refine .inr ⟨a, m, phase, source, sink, by rw [hresult]; rfl, ?_⟩
    rw [hrun, hfiles]

theorem files_of_unselected (h : v.selected? config = none) :
    (v.handshake config files).files = files := by
  obtain ⟨-, hfiles⟩ | ⟨a, _, _, _, _, hselected, -⟩ := v.handshake_cases config files
  · exact hfiles
  · simp [h] at hselected

/-- A handshake that selects a key exchange generates keys for it, which is all that it
does to the files, and fails if no keys are generated. -/
theorem handshake_of_selected {a : KeyExchangeAlgorithm} (h : v.selected? config = some a)
    {outcome : Except CryptoError Unit} {own : KeyExchange} {filled : KeyFiles}
    (hgenerate : (KeyExchange.start a config.keyLifetime).generateKeys files v.noise.even.even =
      (outcome, own, filled)) :
    (v.handshake config files).files = filled ∧
      ∀ cause, outcome = .error cause →
        (v.handshake config files).result = .error (.crypto cause) := by
  obtain ⟨hnothing, -⟩ | ⟨b, m, phase, source, sink, hselected, hrun⟩ :=
    v.handshake_cases config files
  · simp [h] at hnothing
  obtain rfl : a = b := Option.some.inj (h.symm.trans hselected)
  obtain ⟨publish, hpublish, hproceed⟩ :=
    Handshake.exists_proceed ⟨config, files, v.noise⟩ a hgenerate
  rw [hrun, hproceed]
  simp only [Dialogue.expire, Dialogue.run]
  constructor
  · exact Dialogue.files_run (Dialogue.sparesFiles_expire
      (Dialogue.sparesFiles_bind (Dialogue.sparesFiles_ofCrypto _) hpublish)) _ _ _ _ _
  · rintro cause rfl
    change (((Dialogue.failed (.crypto cause) : Dialogue Link).expire _ _).run
      _ _ _ _ _).result = _
    simp only [Dialogue.expire, Dialogue.run]

theorem mem_of_selected {a : KeyExchangeAlgorithm} (h : v.selected? config = some a) :
    a ∈ config.keyExchange.algorithms := by
  obtain ⟨_, hconverse, -⟩ := Dialogue.run_ok (eq_ok_of_toOption h)
  obtain ⟨theirs, -, -, hselect⟩ := Handshake.converse_select (Dialogue.converse_expire hconverse)
  exact (Container.selectStrongest_eq_some hselect).1

end Visit

end CipherLink
