import CipherLink.Proofs.Handshake.Filing
import CipherLink.Proofs.Handshake.Outcome
import CipherLink.Proofs.KeyFiles
import CipherLink.Proofs.Rsa.Generation

/-!
# Handshakes that share a key file

The first handshake that needs a key pair leaves it in the key file, and every later
one finds it there. A key pair serves for handshakes that select its own size and is
refused in all others. So of all that earlier handshakes did, only the size of their
first key pair matters to a later one, and where that size is selected again the offers
of the two sides decide alone.
-/

namespace CipherLink

open Handshake (Prepared Writes HasKeys keyExchangeWith symmetricWith encounter maxOffers)

/-- Whether a key pair of this size is found in the noise, one that undoes its own
encryption. -/
def Rsa.Found (size : UInt32) (noise : Noise) : Prop :=
  ∃ key, Rsa.generate size.toNat noise = .ok key ∧ key.Inverts

/-- What generating keys comes to beside a key file with a key pair of this size, or
without one. -/
def KeyExchangeAlgorithm.keysBeside (first? : Option UInt32) :
    KeyExchangeAlgorithm → Except CryptoError Unit
  | .identity => .ok ()
  | .rsa size =>
    match first? with
    | none => .ok ()
    | some first =>
      if first = size then .ok () else .error (.keySizeMismatch size.toNat first.toNat)

theorem KeyExchange.generateKeys_of_obtain {size : UInt32} {lifetime : KeyLifetime}
    {files filled : KeyFiles} {noise : Noise} {outcome : Except CryptoError Rsa.PrivateKey}
    (h : Rsa.obtain size.toNat lifetime files noise = (outcome, filled)) :
    ∃ own, (start (.rsa size) lifetime).generateKeys files noise =
      (outcome.map fun _ => (), own, filled) := by
  simp only [start, generateKeys, RsaExchange.renew, h]
  cases outcome <;> exact ⟨_, rfl⟩

namespace KeyFiles

variable {files : KeyFiles} {path : String} {first? : Option UInt32} {noise : Noise}

/-- Whether there is a key file with a fresh key pair of this size, or there is none and one
can be made. -/
inductive Holds (files : KeyFiles) (path : String) : Option UInt32 → Prop
  | nothing (h : files.mayCreate path = true) : Holds files path none
  | keyPair {size : UInt32} {key : Rsa.PrivateKey} (h : files.read? path = some key.toText)
      (hfresh : key.Fresh size.toNat) (hbytes : 8 ∣ size.toNat) (hinverts : key.Inverts) :
      Holds files path (some size)

/-- The first key pair is kept. It is obtained again for its own size and refused for
another one. -/
theorem Holds.exists_obtain (h : files.Holds path first?) {size : UInt32} (hbytes : 8 ∣ size.toNat) (hfound : first? = none → Rsa.Found size noise) :
    ∃ outcome filled, Rsa.obtain size.toNat (.persisted path) files noise = (outcome, filled) ∧
      filled.Holds path (first?.or (some size)) ∧
      outcome.map (fun _ => ()) = (KeyExchangeAlgorithm.rsa size).keysBeside first? ∧
      ∀ key, outcome = .ok key → key.Fresh size.toNat ∧ key.Inverts := by
  cases h with
  | nothing h =>
    obtain ⟨key, hgenerate, hinverts⟩ := hfound rfl
    have hfresh := Rsa.fresh_of_generate hgenerate
    refine ⟨.ok key, files.write path key.toText, obtain_of_absent h hgenerate, ?_, rfl, ?_⟩
    · exact .keyPair (read?_write h) hfresh hbytes hinverts
    · rintro _ ⟨⟩
      exact ⟨hfresh, hinverts⟩
  | @keyPair first key h hfresh hfirst hinverts =>
    have hload := hfresh.load_toText hfirst size.toNat path
    rw [obtain_of_read? h, hload]
    refine ⟨_, files, rfl, .keyPair h hfresh hfirst hinverts, ?_⟩
    by_cases hsame : first = size
    · subst hsame
      simp only [if_true, KeyExchangeAlgorithm.keysBeside]
      refine ⟨rfl, ?_⟩
      rintro _ ⟨⟩
      exact ⟨hfresh, hinverts⟩
    · have hdiffers : first.toNat ≠ size.toNat := fun heq => hsame (UInt32.toNat_inj.mp heq)
      simp only [hdiffers, hsame, if_false, KeyExchangeAlgorithm.keysBeside]
      exact ⟨rfl, by simp⟩

theorem Holds.exists_generateKeys (h : files.Holds path first?) {a : KeyExchangeAlgorithm}
    (hbytes : ∀ size, a = .rsa size → 8 ∣ size.toNat)
    (hfound : ∀ size, a = .rsa size → first? = none → Rsa.Found size noise) :
    ∃ own filled, (KeyExchange.start a (.persisted path)).generateKeys files noise =
      (a.keysBeside first?, own, filled) ∧ filled.Holds path (first?.or a.rsaSize?) := by
  cases a with
  | identity => exact ⟨.identity, files, rfl, by simpa [KeyExchangeAlgorithm.rsaSize?] using h⟩
  | rsa size =>
    obtain ⟨outcome, filled, hobtain, hholds, hkeys, -⟩ :=
      h.exists_obtain (hbytes size rfl) (hfound size rfl)
    obtain ⟨own, hgenerate⟩ := KeyExchange.generateKeys_of_obtain hobtain
    exact ⟨own, filled, hkeys ▸ hgenerate, hholds⟩

end KeyFiles

def Visit.FindsKeys (v : Visit) (config : LinkConfig) : Prop :=
  ∀ size, v.selected? config = some (.rsa size) → Rsa.Found size v.noise.even.even

/-- Whether a configuration keeps its key pairs in a file at this path and offers no
RSA sizes but those that can be named. -/
structure LinkConfig.Keeps (config : LinkConfig) (path : String) : Prop where
  lifetime : config.keyLifetime = .persisted path
  named : ∀ size, .rsa size ∈ config.keyExchange.algorithms →
    size ∈ KeyExchangeAlgorithm.namedSizes

section

variable {config : LinkConfig} {path : String} {files : KeyFiles} {first? : Option UInt32}

theorem KeyExchangeAlgorithm.named_facts {size : UInt32} (h : size ∈ namedSizes) :
    8 ∣ size.toNat ∧ 96 ≤ size.toNat := by
  simp only [namedSizes, List.mem_cons, List.not_mem_nil, or_false] at h
  obtain rfl | rfl | rfl | rfl := h <;> decide

theorem LinkConfig.Keeps.exists_generateKeys (hconfig : config.Keeps path)
    (h : files.Holds path first?) {a : KeyExchangeAlgorithm}
    (ha : a ∈ config.keyExchange.algorithms) (noise : Noise)
    (hfound : ∀ size, a = .rsa size → first? = none → Rsa.Found size noise) :
    ∃ own filled, (KeyExchange.start a config.keyLifetime).generateKeys files noise =
      (a.keysBeside first?, own, filled) ∧ filled.Holds path (first?.or a.rsaSize?) := by
  rw [hconfig.lifetime]
  refine h.exists_generateKeys ?_ hfound
  rintro size rfl
  exact (KeyExchangeAlgorithm.named_facts (hconfig.named size ha)).1

theorem KeyFiles.Holds.handshake (h : files.Holds path first?) (hconfig : config.Keeps path)
    {v : Visit} (hfinds : first? = none → v.FindsKeys config) :
    (v.handshake config files).files.Holds path
      (first?.or ((v.selected? config).bind KeyExchangeAlgorithm.rsaSize?)) := by
  cases hselected : v.selected? config with
  | none =>
    rw [Visit.files_of_unselected hselected, Option.bind_none, Option.or_none]
    exact h
  | some a =>
    obtain ⟨own, filled, hgenerate, hholds⟩ :=
      hconfig.exists_generateKeys h (Visit.mem_of_selected hselected) v.noise.even.even
        (by rintro size rfl hnone; exact hfinds hnone size hselected)
    rw [(Visit.handshake_of_selected hselected hgenerate).1]
    exact hholds

end

def primesDrawn (width p q : Nat) : Noise := fun i =>
  UInt8.ofNat ((if i % 8 = 4 then q else p) >>> (8 * (width - i / 8)))

def shortNoise : Noise := primesDrawn 32 (467 * 2 ^ 247 + 1) (3457 * 2 ^ 244 + 1)

def longNoise : Noise := primesDrawn 64 (3751 * 2 ^ 500 + 1) (6171 * 2 ^ 499 + 1)

theorem short_generated : (Rsa.generate 512 shortNoise.even.even).toOption.map
    (fun key => (key.publicKey.blockLength, key.p, key.q)) =
      some (64, 467 * 2 ^ 247 + 1, 3457 * 2 ^ 244 + 1) := by
  decide +kernel

theorem long_key : (Rsa.generate 1024 longNoise.even.even).toOption.map
    (fun key => (key.publicKey.blockLength, key.p, key.q)) =
      some (128, 3751 * 2 ^ 500 + 1, 6171 * 2 ^ 499 + 1) := by
  decide +kernel

def caller (a : KeyExchangeAlgorithm) (noise : Noise) : Visit :=
  ⟨noise, 100, [.data (Handshake.offerList .identity noise [a.descriptor])], .endless⟩

def keyStore : KeyFiles := ⟨[], [(["keys".toList], .directory)], []⟩

theorem keyStore_mayCreate : keyStore.mayCreate "keys/link.pem" = true := by
  decide

end CipherLink
