import CipherLink.KeyExchange
import CipherLink.Proofs.Places
import Mathlib.Data.List.Induction

/-!
# Keys over their history

Each of the two keys of an exchange is what the last call that touched it made of it. The key
pair is touched by the calls that obtain one, and by these only where they succeed. The key of
the other side is touched by an import that succeeds, and by every reset, which has forgotten
it before it can fail. All other calls, and all other failures, leave both as they were.
-/

namespace CipherLink.KeyExchange

def Call.obtained? (bits : Nat) (lifetime : KeyLifetime) : Call → Option Rsa.PrivateKey
  | .generateKeys files noise | .reset files noise =>
    (Rsa.obtain bits lifetime files noise).1.toOption
  | _ => none

def Call.imported? : Call → Option Rsa.PublicKey
  | .setPublicKey text => text.utf8?.bind fun _ => Rsa.PublicKey.ofText? text
  | _ => none

def Call.isReset : Call → Bool
  | .reset _ _ => true
  | _ => false

def Call.own? (bits : Nat) (lifetime : KeyLifetime) (call : Call) :
    Option (Option Rsa.PrivateKey) :=
  (call.obtained? bits lifetime).map some

/-- What a call makes of the key of the other side, if it touches it. A reset leaves none,
whether it succeeds or not. -/
def Call.peer? (call : Call) : Option (Option Rsa.PublicKey) :=
  if call.isReset then some none else call.imported?.map some

section

variable (x : RsaExchange) (files : KeyFiles) (noise : Noise) {text : Bytes}

theorem renew_eq :
    let obtained := Rsa.obtain x.bits x.lifetime files noise
    x.renew files noise = (obtained.1.map fun _ => (),
      { x with keyPair := obtained.1.toOption.or x.keyPair }, obtained.2) := by
  rw [RsaExchange.renew]
  split
  · next key filled h =>
    rw [h]
    rfl
  · next e filled h =>
    rw [h]
    rfl

theorem call_reset :
    (rsa x).call (.reset files noise) = (rsa x.forgetPeer).call (.generateKeys files noise) :=
  rfl

theorem setPublicKey_of_imported {key : Rsa.PublicKey}
    (h : (Call.setPublicKey text).imported? = some key) :
    (rsa x).setPublicKey text = .ok (.rsa { x with peerKey := some key }) := by
  obtain ⟨s, hs, hkey⟩ := Option.bind_eq_some_iff.mp h
  rw [setPublicKey, RsaExchange.setPublicKey, hs]
  simp only [hkey]
  rfl

theorem setPublicKey_of_unimported (h : (Call.setPublicKey text).imported? = none) :
    ∃ detail, (rsa x).setPublicKey text = .error (.invalidPublicKey detail) := by
  rw [setPublicKey, RsaExchange.setPublicKey]
  cases hs : text.utf8? with
  | none => exact ⟨_, rfl⟩
  | some s =>
    have hkey : Rsa.PublicKey.ofText? text = none := by simpa [Call.imported?, hs] using h
    rw [hkey]
    exact ⟨_, rfl⟩

end

theorem call_state (x : RsaExchange) (call : Call) :
    ((rsa x).call call).2 =
      .rsa ⟨x.bits, x.lifetime, (call.own? x.bits x.lifetime).getD x.keyPair,
        call.peer?.getD x.peerKey⟩ := by
  -- Only an import and a call that obtains a key pair can change anything.
  have hobtain (x : RsaExchange) (files : KeyFiles) (noise : Noise) :
      ((rsa x).call (.generateKeys files noise)).2 = .rsa { x with
        keyPair := ((Call.generateKeys files noise).own? x.bits x.lifetime).getD x.keyPair } := by
    simp only [KeyExchange.call, generateKeys, renew_eq, Call.own?, Call.obtained?]
    cases (Rsa.obtain x.bits x.lifetime files noise).1 <;> rfl
  cases call with
  | generateKeys files noise => exact hobtain x files noise
  | reset files noise =>
    rw [call_reset, hobtain]
    rfl
  | setPublicKey text =>
    cases himported : (Call.setPublicKey text).imported? with
    | some key =>
      simp only [KeyExchange.call, setPublicKey_of_imported x himported, Call.peer?, himported]
      rfl
    | none =>
      obtain ⟨detail, hset⟩ := setPublicKey_of_unimported x himported
      simp only [KeyExchange.call, hset, Call.peer?, himported]
      rfl
  | publicKey => rfl
  | chunkLength => rfl
  | encrypt noise bs => rfl
  | decrypt bs => rfl

theorem call_done (x : RsaExchange) (call : Call) :
    ((rsa x).call call).1 = .done (.ok ()) ↔
      (call.obtained? x.bits x.lifetime).isSome ∨ call.imported?.isSome := by
  have hobtain (x : RsaExchange) (files : KeyFiles) (noise : Noise) :
      ((rsa x).call (.generateKeys files noise)).1 = .done (.ok ()) ↔
        (Rsa.obtain x.bits x.lifetime files noise).1.toOption.isSome := by
    simp only [KeyExchange.call, generateKeys, renew_eq]
    cases (Rsa.obtain x.bits x.lifetime files noise).1 <;> simp [Except.map, Except.toOption]
  cases call with
  | generateKeys files noise => simp [hobtain, Call.obtained?, Call.imported?]
  | reset files noise =>
    simp [call_reset, hobtain, Call.obtained?, Call.imported?, RsaExchange.forgetPeer]
  | setPublicKey text =>
    cases himported : (Call.setPublicKey text).imported? with
    | some key => simp [KeyExchange.call, setPublicKey_of_imported x himported]
    | none =>
      obtain ⟨detail, hset⟩ := setPublicKey_of_unimported x himported
      simp [KeyExchange.call, hset, Call.obtained?]
  | publicKey => simp [KeyExchange.call, Call.obtained?, Call.imported?]
  | chunkLength => simp [KeyExchange.call, Call.obtained?, Call.imported?]
  | encrypt noise bs => simp [KeyExchange.call, Call.obtained?, Call.imported?]
  | decrypt bs => simp [KeyExchange.call, Call.obtained?, Call.imported?]

section

variable {κ : Type} {touch : Call → Option (Option κ)} {calls : List Call}

/-- Whether the last of the calls that touch a key, as `touch` tells, leaves this one. -/
def LastLeaves (touch : Call → Option (Option κ)) (calls : List Call) (key : κ) : Prop :=
  ∃ before call after, calls = before ++ call :: after ∧ touch call = some (some key) ∧
    ∀ later ∈ after, touch later = none

def last? (touch : Call → Option (Option κ)) (calls : List Call) : Option κ :=
  calls.foldl (fun key? call => (touch call).getD key?) none

theorem last?_concat (call : Call) :
    last? touch (calls ++ [call]) = (touch call).getD (last? touch calls) := by
  simp [last?]

theorem lastLeaves_concat {call : Call} {key : κ} :
    LastLeaves touch (calls ++ [call]) key ↔
      touch call = some (some key) ∨ touch call = none ∧ LastLeaves touch calls key :=
  exists_last_concat

theorem last?_eq_some_iff {key : κ} :
    last? touch calls = some key ↔ LastLeaves touch calls key := by
  induction calls using List.reverseRecOn with
  | nil => simp [last?, LastLeaves]
  | append_singleton calls call ih =>
    rw [last?_concat, lastLeaves_concat, ← ih]
    cases touch call <;> simp

end

theorem after_eq (bits : Nat) (lifetime : KeyLifetime) (calls : List Call) :
    (rsa ⟨bits, lifetime, none, none⟩).after calls =
      .rsa ⟨bits, lifetime, last? (Call.own? bits lifetime) calls, last? Call.peer? calls⟩ := by
  induction calls using List.reverseRecOn with
  | nil => rfl
  | append_singleton calls call ih =>
    rw [last?_concat, last?_concat, after, List.foldl_append]
    change (((rsa _).after calls).call call).2 = _
    rw [ih, call_state]

/-- An exchange that has been called any number of times, whatever failed, has the key pair of
the last call that obtained one, and the key of the other side that was imported last since it
was last reset, whether that reset succeeded or not. What it encrypts or decrypts and what it
says of its keys follows from these two alone, and a key that there is not is reported. Of the
calls that fail only a reset changes anything: it forgets the key of the other side. -/
theorem keys_follow_history (bits : Nat) (lifetime : KeyLifetime) (calls : List Call) :
    let x := (rsa ⟨bits, lifetime, none, none⟩).after calls
    ∃ own? peer?, x = .rsa ⟨bits, lifetime, own?, peer?⟩ ∧
      (∀ key, own? = some key ↔ LastLeaves (Call.own? bits lifetime) calls key) ∧
      (∀ key, peer? = some key ↔ LastLeaves Call.peer? calls key) ∧
      (∀ noise bs, x.call (.encrypt noise bs) =
        (.bytes (match peer? with
          | some key => key.encrypt noise bs
          | none => .error .missingPublicKey), x)) ∧
      x.call .chunkLength = (.length (peer?.map Rsa.PublicKey.chunkLength), x) ∧
      (∀ bs, x.call (.decrypt bs) =
        (.bytes (match own? with
          | some key => key.decrypt bs
          | none => .error .missingPrivateKey), x)) ∧
      x.call .publicKey =
        (.bytes (match own? with
          | some key => .ok key.publicKey.toText
          | none => .error .missingPrivateKey), x) ∧
      (∀ call, (x.call call).1 = .done (.ok ()) ↔
        (call.obtained? bits lifetime).isSome ∨ call.imported?.isSome) ∧
      ∀ call, (x.call call).1 ≠ .done (.ok ()) →
        (x.call call).2 = if call.isReset then .rsa ⟨bits, lifetime, own?, none⟩ else x := by
  intro x
  have hx : x = .rsa ⟨bits, lifetime, last? (Call.own? bits lifetime) calls,
      last? Call.peer? calls⟩ := after_eq bits lifetime calls
  refine ⟨_, _, hx, fun key => last?_eq_some_iff, fun key => last?_eq_some_iff, ?_⟩
  clear_value x
  subst hx
  refine ⟨fun noise bs => rfl, rfl, fun bs => rfl, rfl, fun call => call_done _ call, ?_⟩
  intro call hfails
  -- A call that fails obtains no key pair and imports no key.
  obtain ⟨hobtained, himported⟩ := not_or.mp (mt (call_done _ call).mpr hfails)
  rw [Option.not_isSome_iff_eq_none] at hobtained himported
  rw [call_state]
  simp only [Call.own?, Call.peer?, hobtained, himported]
  cases call.isReset <;> rfl

end CipherLink.KeyExchange
