import CipherLink.Proofs.Chaining
import CipherLink.Proofs.Handshake.Stages

/-!
# Soundness of handshakes

Whatever the other side sends, and wherever its stream or the sink fails or time
runs out, a handshake that succeeds has settled on algorithms that both sides
offer, no common one being stronger, and on a key package that fits.
-/

namespace CipherLink

namespace SymmetricAlgorithm

variable {a : SymmetricAlgorithm} {package : KeyPackage}

theorem length_of_checkPackage {u : Unit} (h : a.checkPackage package = .ok u) :
    package.key.length = a.keyLength ∧ package.iv.length = a.ivLength := by
  rw [checkPackage] at h
  split at h
  · simp at h
  · next hkey =>
    split at h
    · simp at h
    · next hiv => exact ⟨not_not.mp hkey, not_not.mp hiv⟩

theorem keyed_eq_ok {cipher : Cipher} {chain : Aes.Block}
    (h : a.keyed package = .ok (cipher, chain)) :
    package.key.length = a.keyLength ∧ package.iv.length = a.ivLength ∧
      (a ≠ .identity → cipher ≠ .identity) := by
  cases hcheck : a.checkPackage package with
  | error cause => simp [keyed, hcheck, bind, Except.bind] at h
  | ok u =>
    refine ⟨(length_of_checkPackage hcheck).1, (length_of_checkPackage hcheck).2, ?_⟩
    rintro hne rfl
    cases a with
    | identity => exact hne rfl
    | aes bits =>
      simp only [keyed, hcheck, bind, Except.bind] at h
      split at h
      · next keyed hkeyed =>
        obtain rfl := Except.ok.inj h
        obtain ⟨size, -, hkeyed⟩ := Option.bind_eq_some_iff.mp hkeyed
        obtain ⟨keys, -, hkeyed⟩ := Option.bind_eq_some_iff.mp hkeyed
        obtain ⟨ivs, -, hkeyed⟩ := Option.bind_eq_some_iff.mp hkeyed
        obtain ⟨iv, -, hkeyed⟩ := Option.bind_eq_some_iff.mp hkeyed
        simp [pure] at hkeyed
      · simp [throw, throwThe, MonadExceptOf.throw] at h

end SymmetricAlgorithm

namespace Handshake

theorem blockBytes?_eq_some {bits block : Nat} (h : Frame.blockBytes? bits = some block) :
    4 < block := by
  by_cases hle : bits / 8 ≤ 4
  · simp [Frame.blockBytes?, Frame.prefixLength, hle] at h
  · simp only [Frame.blockBytes?, Frame.prefixLength, hle, if_false, Option.some.injEq] at h
    omega

theorem endsReady_dialogue (p : Party) (phase : Phase) : (dialogue p).EndsReady phase := by
  iterate 9
    apply Dialogue.endsReady_bind
    intro _ _
  exact Dialogue.endsReady_bind fun _ _ => rfl

theorem Course.EndsIn.package {p : Party} {heard : Bytes} {c : Course p heard} {link : Link}
    (h : c.EndsIn link) :
    c.package.key.length = c.symmetric.keyLength ∧ c.package.iv.length = c.symmetric.ivLength :=
  have hkeyed := SymmetricAlgorithm.keyed_eq_ok (SymmetricAlgorithm.decryptor_eq_ok.mp h.decryptor)
  ⟨hkeyed.1, hkeyed.2.1⟩

theorem Course.EndsIn.encrypted {p : Party} {heard : Bytes} {c : Course p heard} {link : Link}
    (h : c.EndsIn link) (hne : c.symmetric ≠ .identity) :
    link.encryptor.cipher ≠ .identity ∧ link.decryptor.cipher ≠ .identity := by
  have hown := SymmetricAlgorithm.keyed_eq_ok (SymmetricAlgorithm.encryptor_eq_ok.mp h.encryptor)
  have htheirs := SymmetricAlgorithm.keyed_eq_ok (SymmetricAlgorithm.decryptor_eq_ok.mp h.decryptor)
  exact ⟨hown.2.2 hne, htheirs.2.2 hne⟩

theorem converse_of_negotiate {p : Party} {source : Source} {sink : Sink}
    {ended : Dialogue.Ended Link}
    (h : ended = negotiate p source sink ∨ ∃ n, ended = negotiateWithin p n source sink)
    {link : Link} (hlink : ended.result = .ok link) :
    ∃ sent rest, (dialogue p).converse source.bytes = some (link, sent, rest) := by
  rcases h with rfl | ⟨n, rfl⟩
  · obtain ⟨sent, hconverse, -⟩ := Dialogue.run_ok hlink
    exact ⟨sent, _, hconverse⟩
  · obtain ⟨sent, hconverse, -⟩ := Dialogue.run_ok hlink
    exact ⟨sent, _, Dialogue.converse_expire hconverse⟩

theorem phase_of_negotiate {p : Party} {source : Source} {sink : Sink}
    {ended : Dialogue.Ended Link}
    (h : ended = negotiate p source sink ∨ ∃ n, ended = negotiateWithin p n source sink) :
    (∀ link, ended.result = .ok link → ended.phase = .ready) ∧
      ∀ cause, ended.result = .error cause → ended.phase = .failed := by
  have hready := endsReady_dialogue p .start
  rcases h with rfl | ⟨n, rfl⟩
  · exact ⟨fun _ => Dialogue.phase_of_run_ok hready, fun _ => Dialogue.phase_of_run_error⟩
  · exact ⟨fun _ => Dialogue.phase_of_run_ok (Dialogue.endsReady_expire hready),
      fun _ => Dialogue.phase_of_run_error⟩

/-- A handshake succeeds exactly if it becomes ready and fails exactly if it is
given up. What it settles on was offered by both sides, is outranked by nothing
else that was, and is keyed by packages of the right lengths. -/
theorem negotiate_sound {p : Party} {source : Source} {sink : Sink} {ended : Dialogue.Ended Link}
    (h : ended = negotiate p source sink ∨ ∃ n, ended = negotiateWithin p n source sink) :
    ((∃ link, ended.result = .ok link) ↔ ended.phase = .ready) ∧
      ((∃ cause, ended.result = .error cause) ↔ ended.phase = .failed) ∧
      ∀ link, ended.result = .ok link → ∃ c : Course p source.bytes,
        link.keyExchange = c.keyExchange.descriptor ∧
        p.config.keyExchange.Strongest c.keyExchangeOffers c.keyExchange ∧
        link.symmetric = c.symmetric.descriptor ∧
        p.config.symmetric.Strongest c.symmetricOffers c.symmetric ∧
        4 < link.block ∧
        c.package.key.length = c.symmetric.keyLength ∧
        c.package.iv.length = c.symmetric.ivLength ∧
        c.symmetric.decryptor c.package = .ok link.decryptor ∧
        (.identity ∉ p.config.symmetric.algorithms →
          link.encryptor.cipher ≠ .identity ∧ link.decryptor.cipher ≠ .identity) := by
  obtain ⟨hok, herror⟩ := phase_of_negotiate h
  refine ⟨⟨?_, ?_⟩, ⟨?_, ?_⟩, ?_⟩
  · rintro ⟨link, hlink⟩
    exact hok link hlink
  · intro hphase
    cases hresult : ended.result with
    | ok link => exact ⟨link, rfl⟩
    | error cause => simp [herror cause hresult] at hphase
  · rintro ⟨cause, hcause⟩
    exact herror cause hcause
  · intro hphase
    cases hresult : ended.result with
    | ok link => simp [hok link hresult] at hphase
    | error cause => exact ⟨cause, rfl⟩
  · intro link hlink
    obtain ⟨sent, rest, hconverse⟩ := converse_of_negotiate h hlink
    obtain ⟨c, hends, -, -⟩ := converse_dialogue hconverse
    have hsymmetric := Container.strongest_of_selectStrongest c.selectSymmetric
    refine ⟨c, hends.keyExchange, Container.strongest_of_selectStrongest c.selectKeyExchange,
      hends.symmetric, hsymmetric, blockBytes?_eq_some hends.block, hends.package.1,
      hends.package.2, hends.decryptor, ?_⟩
    intro hidentity
    apply hends.encrypted
    intro hsame
    rw [hsame] at hsymmetric
    exact hidentity hsymmetric.mem

def listener : Party :=
  ⟨.ofAlgorithms [.identity] [.aes 128, .aes 256], .empty, fun _ => 7⟩

def field (content : Bytes) : Bytes :=
  Bytes.ofNat numberLength content.length ++ content

/-- The words of another side that understates the strength of one cipher. -/
def utterance : Bytes :=
  Bytes.ofNat numberLength 1 ++ field (Recorded.encode KeyExchangeAlgorithm.identity.descriptor) ++
    field [] ++ Bytes.ofNat numberLength 2 ++
    field (Recorded.encode { (SymmetricAlgorithm.aes 256).descriptor with strength := 1 }) ++
    field (Recorded.encode (SymmetricAlgorithm.aes 128).descriptor) ++
    field (Recorded.encode (⟨List.replicate 16 1, List.replicate 16 2⟩ : KeyPackage))

theorem negotiate_sound_at :
    (negotiate listener [.data utterance] .endless).phase = .ready ∧
      ∃ link, (negotiate listener [.data utterance] .endless).result = .ok link ∧
        link.symmetric = (SymmetricAlgorithm.aes 128).descriptor ∧
        ∃ c : Course listener (Source.bytes [.data utterance]), link.symmetric = c.symmetric.descriptor ∧
          listener.config.symmetric.Strongest c.symmetricOffers c.symmetric ∧
          c.package.key.length = c.symmetric.keyLength ∧
          link.encryptor.cipher ≠ .identity ∧ link.decryptor.cipher ≠ .identity := by
  have hlink : ((negotiate listener [.data utterance] .endless).result.toOption.map fun link =>
      link.symmetric) = some (SymmetricAlgorithm.aes 128).descriptor := by
    decide +kernel
  obtain ⟨link, hresult, hsymmetric⟩ := Option.map_eq_some_iff.mp hlink
  have hresult := eq_ok_of_toOption hresult
  obtain ⟨hready, -, hsound⟩ :=
    negotiate_sound (.inl (Eq.refl (negotiate listener [.data utterance] .endless)))
  obtain ⟨c, -, -, hselected, hstrongest, -, hkey, -, -, hencrypted⟩ := hsound link hresult
  exact ⟨hready.mp ⟨link, hresult⟩, link, hresult, hsymmetric, c, hselected, hstrongest, hkey,
    hencrypted (by decide)⟩

end Handshake

end CipherLink
