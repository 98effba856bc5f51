import CipherLink.Proofs.Frame.Writing
import CipherLink.Proofs.Sessions
import CipherLink.Session.Usage

/-!
# Sends of connected sessions

Only two things close a writer: a close of its session, which marks the session as closed
before, and a write that fails. The failed write leaves the session connected. So a
connected session has an open writer exactly as long as none of its writes has failed,
and from then on refuses everything that it is given to send, although it is connected.
-/

namespace CipherLink

namespace FrameWriter

variable {w next : FrameWriter} {noise : Noise}

theorem send_ne_closed (hopen : w.isOpen = true) (payload : Bytes) (noise : Noise)
    (next : FrameWriter) : w.send payload noise ≠ some (.error .closed, next) := by
  intro h
  simp only [send, hopen, Bool.not_true, Bool.false_eq_true, if_false] at h
  split at h
  · simp at h
  · split at h
    · simp at h
    · obtain ⟨total, -, h⟩ := Option.bind_eq_some_iff.mp h
      obtain ⟨frame, -, h⟩ := Option.bind_eq_some_iff.mp h
      split at h
      · simp [pure] at h
      · next frame encryptor _ =>
        obtain hdeliver | ⟨part, fault, -, hdeliver⟩ := w.deliver_cases frame encryptor
        · simp [hdeliver, pure] at h
        · simp [hdeliver, pure] at h

theorem perform_ne_closed (hopen : w.isOpen = true) (order : FrameOrder) (noise : Noise)
    (next : FrameWriter) : w.perform order noise ≠ some (.error .closed, next) := by
  cases order with
  | empty => exact send_ne_closed hopen [] noise next
  | message message =>
    have hcodec (cause : CodecError) : FrameError.ofCodecError cause ≠ .closed := by
      cases cause <;> nofun
    intro h
    rw [perform, write] at h
    split at h
    · simp [hcodec] at h
    · split at h
      · simp at h
      · obtain ⟨total, -, h⟩ := Option.bind_eq_some_iff.mp h
        split at h
        · simp [hcodec, pure] at h
        · exact send_ne_closed hopen _ noise next h

/-- Whether a message can be encoded, within the limit by the size that is announced. -/
def Encodes (w : FrameWriter) (message : Message) : Prop :=
  ∃ size total payload, w.codec.size message = .ok size ∧ size ≤ w.limit ∧
    Frame.paddedLength? size w.block = some total ∧ w.codec.encode message = .ok payload

theorem write_closed {message : Message} (hclosed : w.isOpen = false) (h : w.Encodes message)
    (noise : Noise) : w.write message noise = some (.error .closed, w) := by
  obtain ⟨size, total, payload, hsize, hlimit, htotal, hpayload⟩ := h
  simp [write, hsize, Nat.not_lt.mpr hlimit, htotal, hpayload, send, hclosed]

theorem perform_eq_some {order : FrameOrder} {result : Except FrameError Nat}
    (h : w.perform order noise = some (result, next)) :
    ((∃ fault, result = .error (.transport fault)) ∧ next.isOpen = false) ∨
      (∀ fault, result ≠ .error (.transport fault)) ∧ next.isOpen = w.isOpen := by
  obtain ⟨hcomes, hperform⟩ := w.comes_pack order noise
  rw [hperform] at h
  generalize w.pack order noise = outcome at h hcomes
  cases hcomes with
  | broken => simp at h
  | refused cause hcause =>
    simp only [Option.map_some, conclude, Option.some.injEq, Prod.mk.injEq] at h
    obtain ⟨rfl, rfl⟩ := h
    exact .inr ⟨by simpa using hcause, rfl⟩
  | @packed payload frame encryptor =>
    rw [Option.map_some, Option.some.injEq, conclude] at h
    obtain hdeliver | ⟨part, fault, -, hdeliver⟩ := w.deliver_cases frame encryptor
    · rw [hdeliver, Prod.mk.injEq] at h
      obtain ⟨rfl, rfl⟩ := h
      exact .inr ⟨by simp, rfl⟩
    · rw [hdeliver, Prod.mk.injEq] at h
      obtain ⟨rfl, rfl⟩ := h
      exact .inl ⟨⟨fault, rfl⟩, rfl⟩

end FrameWriter

namespace Session

variable {s next : Session} {noise : Noise} {result : Except SessionError Nat}

def Failed (result : Except SessionError Nat) : Prop :=
  ∃ fault, result = .error (.frame (.transport fault))

theorem write_eq_some {order : FrameOrder} (h : s.write order noise = some (result, next)) :
    next.isConnected = s.isConnected ∧
      (Failed result ∧ next.channel.writer.isOpen = false ∨
        ¬ Failed result ∧ next.channel.writer.isOpen = s.channel.writer.isOpen) := by
  obtain ⟨⟨outcome, writer⟩, hperform, hafter⟩ := Option.map_eq_some_iff.mp h
  obtain hfailed | ⟨hresult, hopen⟩ := FrameWriter.perform_eq_some hperform
  · obtain ⟨⟨fault, rfl⟩, hclosed⟩ := hfailed
    obtain ⟨rfl, rfl⟩ := Prod.mk.inj hafter
    exact ⟨rfl, .inl ⟨⟨fault, rfl⟩, hclosed⟩⟩
  · cases outcome with
    | error cause =>
      obtain ⟨rfl, rfl⟩ := Prod.mk.inj hafter
      refine ⟨rfl, .inr ⟨?_, hopen⟩⟩
      rintro ⟨fault, hfault⟩
      cases hfault
      exact hresult fault rfl
    | ok size =>
      obtain ⟨rfl, rfl⟩ := Prod.mk.inj hafter
      exact ⟨rfl, .inr ⟨nofun, hopen⟩⟩

theorem send_eq (s : Session) (message : Message) (noise : Noise) :
    s.send message noise =
      if s.isConnected then s.write (.message message) noise else some (.error .notConnected, s) :=
  rfl

end Session

namespace Usage

variable {u : Usage}

def HasFailed (u : Usage) : Prop :=
  ∃ result ∈ u.results, Session.Failed result

theorem hasFailed_append {results : List (Except SessionError Nat)}
    {result : Except SessionError Nat} (session : Session) (waiting : List (FrameOrder × Noise))
    (closing : Nat) : HasFailed ⟨session, waiting, closing, results ++ [result]⟩ ↔
      (∃ earlier ∈ results, Session.Failed earlier) ∨ Session.Failed result := by
  simp [HasFailed, or_and_right, exists_or]

theorem send_at_once (hwaiting : u.waiting = []) {message : Message} {noise : Noise}
    {result : Except SessionError Nat} {next : Session}
    (h : u.session.send message noise = some (result, next)) :
    (u.step (.ask (.message message) noise)).step (.write 0) =
      { u with session := next, results := u.results ++ [result] } := by
  rw [Session.send_eq] at h
  by_cases hconnected : u.session.isConnected = true
  · rw [if_pos hconnected] at h
    simp [Usage.step, Usage.ask, Usage.write, hconnected, hwaiting, h]
  · rw [if_neg hconnected, Option.some.injEq, Prod.mk.injEq] at h
    obtain ⟨rfl, rfl⟩ := h
    simp [Usage.step, Usage.ask, Usage.write, hconnected, hwaiting]

theorem close_at_once (u : Usage) :
    (u.step .close).step .shut = { u with session := u.session.close } := by
  simp [Usage.step, Usage.shut, Session.ended, Session.shut, Session.close]

theorem isConnected_of_step (step : Step) (h : (u.step step).session.isConnected = true) :
    u.session.isConnected = true := by
  cases step with
  | ask order noise =>
    rw [Usage.step, Usage.ask] at h
    split at h <;> assumption
  | write place =>
    rw [Usage.step, Usage.write] at h
    split at h
    · exact h
    · dsimp only at h
      split at h
      · next hwrite =>
        rwa [(Session.write_eq_some hwrite).1] at h
      · exact h
  | close => cases h
  | shut =>
    rw [Usage.step, Usage.shut] at h
    split at h <;> exact h
  | read => exact u.session.read_keeps.2 h
  | stream change => exact h
  | sink room flushFault shutdownFault => exact h

theorem isConnected_of_after (steps : List Step)
    (h : (u.after steps).session.isConnected = true) : u.session.isConnected = true := by
  induction steps generalizing u with
  | nil => exact h
  | cons step steps ih => exact isConnected_of_step step (ih h)

/-- What is known of a session in use. A failed write has closed the writer, and while
the session is connected nothing else has. -/
structure Sound (u : Usage) : Prop where
  broken : u.HasFailed → u.session.channel.writer.isOpen = false
  unclosed : u.session.isConnected = true → u.closing = 0
  intact : u.session.isConnected = true → u.session.channel.writer.isOpen = false → u.HasFailed

theorem Sound.start {channel : Channel} (hopen : channel.writer.isOpen = true) (id : ClientId) :
    (start id channel).Sound where
  broken := by rintro ⟨result, hmem, -⟩; cases hmem
  unclosed _ := rfl
  intact _ hclosed := by
    have hopen : (Usage.start id channel).session.channel.writer.isOpen = true := hopen
    rw [hopen] at hclosed
    cases hclosed

theorem Sound.ask (hu : u.Sound) (order : FrameOrder) (noise : Noise) :
    (u.ask order noise).Sound := by
  rw [Usage.ask]
  split
  · exact ⟨hu.broken, hu.unclosed, hu.intact⟩
  · next hconnected =>
    refine ⟨?_, fun h => absurd h hconnected, fun h => absurd h hconnected⟩
    rw [hasFailed_append]
    rintro (hfailed | ⟨fault, hfault⟩)
    · exact hu.broken hfailed
    · cases hfault

theorem Sound.write (hu : u.Sound) (place : Nat) : (u.write place).Sound := by
  rw [Usage.write]
  split
  · exact hu
  · dsimp only
    split
    · next hwrite =>
      obtain ⟨hconnected, ⟨hfailed, hclosed⟩ | ⟨hfailed, hopen⟩⟩ := Session.write_eq_some hwrite
      · refine ⟨fun _ => hclosed, ?_, fun _ _ => ?_⟩
        · rw [hconnected]
          exact hu.unclosed
        · rw [hasFailed_append]
          exact .inr hfailed
      · refine ⟨?_, ?_, ?_⟩
        · rw [hasFailed_append, hopen]
          rintro (hbefore | hnow)
          · exact hu.broken hbefore
          · exact absurd hnow hfailed
        · rw [hconnected]
          exact hu.unclosed
        · rw [hasFailed_append, hconnected, hopen]
          exact fun hconnected hclosed => .inl (hu.intact hconnected hclosed)
    · exact ⟨hu.broken, hu.unclosed, hu.intact⟩

theorem Sound.shut (hu : u.Sound) : u.shut.Sound := by
  rw [Usage.shut]
  split
  · exact hu
  · next hclosing =>
    have hconnected : ¬ u.session.isConnected = true := fun h => hclosing (hu.unclosed h)
    exact ⟨fun _ => rfl, fun h => absurd h hconnected, fun h => absurd h hconnected⟩

theorem Sound.read (hu : u.Sound) : (u.step .read).Sound := by
  have hwriter : (u.step .read).session.channel.writer = u.session.channel.writer :=
    u.session.read_writer
  refine ⟨?_, fun h => hu.unclosed (u.session.read_keeps.2 h), fun h => ?_⟩
  · rw [hwriter]
    exact hu.broken
  · rw [hwriter]
    exact hu.intact (u.session.read_keeps.2 h)

theorem Sound.step (hu : u.Sound) (step : Step) : (u.step step).Sound := by
  cases step with
  | ask order noise => exact hu.ask order noise
  | write place => exact hu.write place
  | close => exact ⟨hu.broken, nofun, nofun⟩
  | shut => exact hu.shut
  | read => exact hu.read
  | stream change => exact ⟨hu.broken, hu.unclosed, hu.intact⟩
  | sink room flushFault shutdownFault => exact ⟨hu.broken, hu.unclosed, hu.intact⟩

theorem Sound.after (hu : u.Sound) (steps : List Step) : (u.after steps).Sound := by
  induction steps generalizing u with
  | nil => exact hu
  | cons step steps ih => exact ih (hu.step step)

theorem Sound.isOpen_iff (hu : u.Sound) (hconnected : u.session.isConnected = true) :
    u.session.channel.writer.isOpen = true ↔ ¬ u.HasFailed := by
  refine ⟨fun hopen hfailed => ?_, fun hfailed => ?_⟩
  · rw [hu.broken hfailed] at hopen
    cases hopen
  · refine Bool.of_not_eq_false fun hclosed => ?_
    exact hfailed (hu.intact hconnected hclosed)

end Usage

namespace Session

variable {s next : Session}

theorem send_closed_iff (hconnected : s.isConnected = true) {message : Message}
    (hencodes : s.channel.writer.Encodes message) (noise : Noise) :
    (∃ next, s.send message noise = some (.error (.frame .closed), next)) ↔
      s.channel.writer.isOpen = false := by
  rw [send_eq, if_pos hconnected]
  refine ⟨?_, fun hclosed => ?_⟩
  · rintro ⟨next, hsend⟩
    obtain ⟨⟨outcome, writer⟩, hperform, hafter⟩ := Option.map_eq_some_iff.mp hsend
    cases outcome with
    | ok size => cases hafter
    | error cause =>
      cases hafter
      refine Bool.eq_false_iff.mpr fun hopen => ?_
      exact FrameWriter.perform_ne_closed hopen _ noise writer hperform
  · have hrefused := FrameWriter.write_closed hclosed hencodes noise
    exact ⟨_, by rw [write, FrameWriter.perform, hrefused, Option.map_some, afterWrite]⟩

end Session

/-- However a session is used, once it is closed it stays closed. While it is connected,
its writer is open exactly when no write has failed, and from the first failed write on
it refuses every message that can be encoded, for being closed. -/
theorem Usage.connected_until_failure {channel : Channel} (hopen : channel.writer.isOpen = true)
    (id : ClientId) (steps : List Step) :
    let u := (Usage.start id channel).after steps
    (u.session.isConnected = false → ∀ later, (u.after later).session.isConnected = false) ∧
    (u.session.isConnected = true →
      (u.session.channel.writer.isOpen = true ↔ ¬ u.HasFailed) ∧
      ∀ (message : Message) (noise : Noise), u.session.channel.writer.Encodes message →
        ((∃ next, u.session.send message noise = some (.error (.frame .closed), next)) ↔
          u.HasFailed)) := by
  intro u
  have hu : u.Sound := (Sound.start hopen id).after steps
  refine ⟨fun hclosed later => ?_, fun hconnected => ⟨hu.isOpen_iff hconnected, ?_⟩⟩
  · refine Bool.eq_false_iff.mpr fun hconnected => ?_
    rw [isConnected_of_after later hconnected] at hclosed
    cases hclosed
  · intro message noise hencodes
    rw [Session.send_closed_iff hconnected hencodes]
    exact ⟨hu.intact hconnected, hu.broken⟩

/-- A session that sends a message and, when the sink breaks, fails to send an empty
frame. It is closed only later. -/
theorem Usage.connected_until_failure_broken :
    let message : Message := ⟨5, some (.ofNat 3), [1, 2, 3]⟩
    let steps : List Step := [.ask (.message message) fun _ => 9, .write 0,
      .sink (some (64, ⟨.other "BrokenPipe", "gone"⟩)) none none, .ask .empty fun _ => 8, .write 0]
    let u := (Usage.start (.ofNat 1) (plainChannel 128)).after steps
    let closed := (Usage.start (.ofNat 1) (plainChannel 128)).after (steps ++ [.close])
    (plainChannel 128).writer.isOpen = true ∧
    u.session.isConnected = true ∧ u.HasFailed ∧
    (u.session.channel.writer.isOpen = true ↔ ¬ u.HasFailed) ∧
    (∀ noise, (∃ next, u.session.send message noise = some (.error (.frame .closed), next)) ↔
      u.HasFailed) ∧
    closed.session.isConnected = false ∧
    ∀ later, (closed.after later).session.isConnected = false := by
  intro message steps
  have hopen : (plainChannel 128).writer.isOpen = true := rfl
  obtain ⟨-, hconnects⟩ := connected_until_failure hopen (.ofNat 1) steps
  obtain ⟨hlater, -⟩ := connected_until_failure hopen (.ofNat 1) (steps ++ [.close])
  -- The run is evaluated only where its state is asked for.
  generalize hu : (Usage.start (.ofNat 1) (plainChannel 128)).after steps = u at hconnects ⊢
  generalize hv : (Usage.start (.ofNat 1) (plainChannel 128)).after (steps ++ [.close]) = closed
    at hlater ⊢
  have hconnected : u.session.isConnected = true := by
    rw [← hu]
    decide +kernel
  have hresults : u.results =
      [.ok 64, .error (.frame (.transport ⟨.other "BrokenPipe", "gone"⟩))] := by
    rw [← hu]
    decide +kernel
  have hfailed : u.HasFailed := by
    refine ⟨.error (.frame (.transport ⟨.other "BrokenPipe", "gone"⟩)), ?_, _, rfl⟩
    simp [hresults]
  have hencodes : u.session.channel.writer.Encodes message := by
    rw [← hu]
    exact ⟨45, 64, Recorded.encode message, by decide +kernel, by decide +kernel,
      by decide +kernel, by decide +kernel⟩
  have hclosed : closed.session.isConnected = false := by
    rw [← hv]
    decide +kernel
  obtain ⟨hiff, hsend⟩ := hconnects hconnected
  exact ⟨hopen, hconnected, hfailed, hiff, fun noise => hsend message noise hencodes, hclosed,
    hlater hclosed⟩

/-- Nothing waits for the writer and nothing has closed the session, which calls itself
connected: yet it refuses a message that can be encoded, for being closed. -/
theorem Usage.connected_session_refuses :
    let message : Message := ⟨5, some (.ofNat 3), [1, 2, 3]⟩
    let noise : Noise := fun _ => 7
    let channel : Channel := { plainChannel 128 with
      writer := { (plainChannel 128).writer with
        sink := ⟨[], some (0, ⟨.other "BrokenPipe", "gone"⟩), none, none⟩ } }
    let u := (Usage.start (.ofNat 1) channel).after [.ask (.message message) noise, .write 0]
    channel.writer.isOpen = true ∧ u.waiting.length = 0 ∧ u.closing = 0 ∧
    u.session.isConnected = true ∧ u.session.channel.writer.isOpen = false ∧
    u.session.channel.writer.Encodes message ∧
    ∃ next, u.session.send message noise = some (.error (.frame .closed), next) := by
  intro message noise channel u
  have hconnected : u.session.isConnected = true := by decide +kernel
  have hclosed : u.session.channel.writer.isOpen = false := by decide +kernel
  have hencodes : u.session.channel.writer.Encodes message :=
    ⟨45, 64, Recorded.encode message, by decide +kernel, by decide +kernel, by decide +kernel,
      by decide +kernel⟩
  have hrefused := (Session.send_closed_iff hconnected hencodes noise).mpr hclosed
  exact ⟨rfl, by decide +kernel, by decide +kernel, hconnected, hclosed, hencodes, hrefused⟩

end CipherLink
