import CipherLink.Proofs.Dialogues

/-!
# Both sides of a dialogue

Under any schedule, what a side has taken out of its inbox and what it has sent
account for the dialogue that is left to it, and what one side has sent is what
the other has taken and still has in its inbox. So two sides that both come to an
end have heard what the other one sent.
-/

namespace CipherLink

variable {α β : Type}

/-- Whether a side that began with a dialogue and has not failed has heard and
sent these bytes. -/
def Side.Accounts (d : Dialogue α) (s : Side α) (heard sent : Bytes) : Prop :=
  (∃ cause, s.dialogue = .failed cause) ∨ ∀ bytes, d.converse (heard ++ bytes) =
    (s.dialogue.converse bytes).map fun (result, more, rest) => (result, sent ++ more, rest)

theorem Side.accounts_start (files : KeyFiles) (d : Dialogue α) :
    (Side.start files d).Accounts d [] [] := by
  right
  intro bytes
  exact Option.map_id'.symm

theorem Side.accounts_fail {d : Dialogue α} (s : Side α) (cause : HandshakeError)
    (heard sent : Bytes) : (s.fail cause).Accounts d heard sent :=
  .inl ⟨cause, rfl⟩

theorem Side.accounts_step {d : Dialogue α} {s : Side α} {heard sent : Bytes}
    (h : s.Accounts d heard sent) (peerIsOver : Bool) :
    ∃ taken : Bytes, s.inbox = taken ++ (s.step peerIsOver).1.inbox ∧
      (s.step peerIsOver).1.Accounts d (heard ++ taken) (sent ++ (s.step peerIsOver).2) := by
  obtain ⟨dialogue, phase, files, inbox⟩ := s
  rcases h with ⟨cause, hfailed⟩ | haccounts
  · dsimp only at hfailed
    subst hfailed
    exact ⟨[], rfl, Side.accounts_fail _ _ _ _⟩
  · dsimp only at haccounts
    cases dialogue with
    | done result =>
      refine ⟨[], rfl, .inr ?_⟩
      simpa only [step, List.append_nil] using haccounts
    | failed cause => exact ⟨[], rfl, Side.accounts_fail _ _ _ _⟩
    | send bytes next =>
      simp only [step]
      split
      · exact ⟨[], rfl, Side.accounts_fail _ _ _ _⟩
      · refine ⟨[], rfl, .inr ?_⟩
        intro more
        rw [List.append_nil, haccounts, Dialogue.converse, Option.map_map]
        simp only [Function.comp_def, List.append_assoc]
    | flush next =>
      refine ⟨[], rfl, .inr ?_⟩
      simpa only [step, Dialogue.converse, List.append_nil] using haccounts
    | receive awaited n next =>
      simp only [step]
      split
      · next bytes rest hsplit =>
        obtain ⟨rfl, hlength⟩ := Bytes.split?_eq_some hsplit
        refine ⟨bytes, rfl, .inr ?_⟩
        intro more
        have hfront := Bytes.split?_append bytes more
        rw [hlength] at hfront
        rw [List.append_assoc, haccounts, Dialogue.converse, hfront, List.append_nil]
      · split
        · exact ⟨[], rfl, Side.accounts_fail _ _ _ _⟩
        · refine ⟨[], rfl, .inr ?_⟩
          simpa only [List.append_nil] using haccounts
    | enter phase next =>
      refine ⟨[], rfl, .inr ?_⟩
      simpa only [step, Dialogue.converse, List.append_nil] using haccounts
    | keep files next =>
      refine ⟨[], rfl, .inr ?_⟩
      simpa only [step, Dialogue.converse, List.append_nil] using haccounts

theorem Side.accounts_hear {d : Dialogue α} {s : Side α} {heard sent : Bytes}
    (h : s.Accounts d heard sent) (bytes : Bytes) : (s.hear bytes).Accounts d heard sent := h

namespace Pair

/-- What holds of a pair under any schedule: what one side has sent has been heard
by the other side or has arrived there. -/
structure Lossless (left : Dialogue α) (right : Dialogue β) (p : Pair α β)
    (heardLeft heardRight : Bytes) : Prop where
  left : p.left.Accounts left heardLeft (heardRight ++ p.right.inbox)
  right : p.right.Accounts right heardRight (heardLeft ++ p.left.inbox)

variable {left : Dialogue α} {right : Dialogue β} {p : Pair α β} {heardLeft heardRight : Bytes}

theorem lossless_step (h : Lossless left right p heardLeft heardRight) (turn : Turn) :
    ∃ heardLeft heardRight, Lossless left right (p.step turn) heardLeft heardRight := by
  cases turn with
  | left =>
    obtain ⟨taken, hinbox, hleft⟩ := Side.accounts_step h.left p.right.isOver
    refine ⟨heardLeft ++ taken, heardRight, ⟨?_, ?_⟩⟩
    · simpa only [step, Side.hear, List.append_assoc] using hleft
    · have hright := h.right
      rw [hinbox, ← List.append_assoc] at hright
      exact Side.accounts_hear hright _
  | right =>
    obtain ⟨taken, hinbox, hright⟩ := Side.accounts_step h.right p.left.isOver
    refine ⟨heardLeft, heardRight ++ taken, ⟨?_, ?_⟩⟩
    · have hleft := h.left
      rw [hinbox, ← List.append_assoc] at hleft
      exact Side.accounts_hear hleft _
    · simpa only [step, Side.hear, List.append_assoc] using hright

theorem lossless_follow (h : Lossless left right p heardLeft heardRight) (schedule : List Turn) :
    ∃ heardLeft heardRight, Lossless left right (p.follow schedule) heardLeft heardRight := by
  induction schedule generalizing p heardLeft heardRight with
  | nil => exact ⟨heardLeft, heardRight, h⟩
  | cons turn schedule ih =>
    obtain ⟨_, _, hstep⟩ := lossless_step h turn
    exact ih hstep

theorem dialogue_of_result? {s : Side α} {a : α} (h : s.result? = some (.ok a)) :
    s.dialogue = .done a := by
  rw [Side.result?] at h
  split at h
  · next hdone =>
    obtain rfl := Except.ok.inj (Option.some.inj h)
    exact hdone
  · simp at h
  · simp at h

/-- Two sides that are both done under some schedule have conversed with each
other: each has heard what the other sent. -/
theorem converse_of_follow {filesLeft filesRight : KeyFiles} {schedule : List Turn} {a : α} {b : β}
    (hp : (Pair.mk (.start filesLeft left) (.start filesRight right)).follow schedule = p)
    (ha : p.left.result? = some (.ok a)) (hb : p.right.result? = some (.ok b)) :
    ∃ sentLeft sentRight restLeft restRight,
      left.converse sentRight = some (a, sentLeft, restLeft) ∧
      right.converse sentLeft = some (b, sentRight, restRight) := by
  have hstart : Lossless left right (Pair.mk (.start filesLeft left) (.start filesRight right))
      [] [] := ⟨Side.accounts_start _ _, Side.accounts_start _ _⟩
  obtain ⟨heardLeft, heardRight, hleft, hright⟩ := lossless_follow hstart schedule
  rw [hp] at hleft hright
  rcases hleft with ⟨cause, hfailed⟩ | hleft
  · simp [dialogue_of_result? ha] at hfailed
  rcases hright with ⟨cause, hfailed⟩ | hright
  · simp [dialogue_of_result? hb] at hfailed
  refine ⟨heardRight ++ p.right.inbox, heardLeft ++ p.left.inbox, p.left.inbox, p.right.inbox,
    ?_, ?_⟩
  · rw [hleft, dialogue_of_result? ha]
    simp [Dialogue.converse]
  · rw [hright, dialogue_of_result? hb]
    simp [Dialogue.converse]

end Pair

end CipherLink
