import CipherLink.Handshake.Meeting
import CipherLink.Proofs.Chaining

/-!
# Buffers come out as they went in

At any time the transform at the end of a direction would open what is underway,
one buffer after the other, and would then be the peer of the transform at its
beginning. So as long as the buffers consist of whole blocks, nothing fails and
every buffer comes out as it was sent, in order.
-/

namespace CipherLink

/-- The buffers that a transform would decrypt to others, and the transform that
it would then be. -/
inductive Decryptor.Yields : Decryptor → List Bytes → List Bytes → Decryptor → Prop
  | nil (d : Decryptor) : Yields d [] [] d
  | cons {d d' last : Decryptor} {encrypted buffer : Bytes} {underway buffers : List Bytes}
      (head : d.apply encrypted = .ok (buffer, d')) (tail : Yields d' underway buffers last) :
      Yields d (encrypted :: underway) (buffer :: buffers) last

theorem Decryptor.Yields.snoc {d last last' : Decryptor} {underway buffers : List Bytes}
    {encrypted buffer : Bytes} (h : Yields d underway buffers last)
    (hlast : last.apply encrypted = .ok (buffer, last')) :
    Yields d (underway ++ [encrypted]) (buffers ++ [buffer]) last' := by
  induction h with
  | nil d => exact .cons hlast (.nil last')
  | cons head _ ih => exact .cons head (ih hlast)

theorem Decryptor.Yields.length {d last : Decryptor} {underway buffers : List Bytes}
    (h : Yields d underway buffers last) : underway.length = buffers.length := by
  induction h with
  | nil d => rfl
  | cons head _ ih => rw [List.length_cons, List.length_cons, ih]

namespace Direction

variable {d : Direction} {sent : List Bytes}

/-- Whether a direction has carried all that was sent and has lost track of
nothing. -/
def Faithful (d : Direction) (sent : List Bytes) : Prop :=
  ∃ buffers, sent = d.arrived ++ buffers ∧
    d.decryptor.Yields d.underway buffers d.encryptor.peer

theorem faithful_send (h : d.Faithful sent) {buffer : Bytes}
    (hbuffer : Cipher.blockLength ∣ buffer.length) :
    ∃ d', d.send buffer = .ok d' ∧ d'.Faithful (sent ++ [buffer]) := by
  obtain ⟨buffers, rfl, hyields⟩ := h
  obtain ⟨encrypted, encryptor, happly⟩ := d.encryptor.exists_apply hbuffer
  refine ⟨{ d with encryptor, underway := d.underway ++ [encrypted] }, ?_, buffers ++ [buffer],
    List.append_assoc _ _ _, hyields.snoc (Encryptor.peer_apply happly)⟩
  simp only [send, happly, bind, Except.bind, pure, Except.pure]

theorem faithful_receive (h : d.Faithful sent) : ∃ d', d.receive = .ok d' ∧ d'.Faithful sent := by
  obtain ⟨encryptor, decryptor, underway, arrived⟩ := d
  obtain ⟨buffers, hsent, hyields⟩ := h
  dsimp only at hsent hyields
  obtain ⟨last, hlast⟩ : ∃ last, encryptor.peer = last := ⟨_, rfl⟩
  rw [hlast] at hyields
  cases hyields with
  | nil =>
    refine ⟨_, rfl, [], hsent, ?_⟩
    dsimp only
    rw [hlast]
    exact .nil _
  | @cons _ opened _ encrypted buffer underway buffers head tail =>
    refine ⟨⟨encryptor, opened, underway, arrived ++ [buffer]⟩, ?_, buffers, ?_, ?_⟩
    · simp only [receive, head, bind, Except.bind, pure, Except.pure]
    · rw [hsent, List.append_assoc, List.singleton_append]
    · dsimp only
      rwa [hlast]

end Direction

namespace Traffic

open Activity (sentBy)

variable {t : Traffic} {sent : Turn → List Bytes}

def Faithful (t : Traffic) (sent : Turn → List Bytes) : Prop :=
  ∀ side, (t.direction side).Faithful (sent side)

theorem sentBy_cons (activity : Activity) (activities : List Activity) (side : Turn) :
    sentBy (activity :: activities) side =
      (activity.buffer? side).toList ++ sentBy activities side := by
  cases hbuffer : activity.buffer? side <;> simp [sentBy, hbuffer]

theorem direction_put (t : Traffic) (d : Direction) (side : Turn) :
    (t.put d side).direction side = d := by
  cases side <;> rfl

theorem direction_put_of_ne (t : Traffic) (d : Direction) {side place : Turn}
    (h : side ≠ place) : (t.put d place).direction side = t.direction side := by
  cases side <;> cases place <;> first | rfl | exact absurd rfl h

theorem faithful_step (h : t.Faithful sent) {activity : Activity}
    (hwhole : ∀ side buffer, activity = .send side buffer → Cipher.blockLength ∣ buffer.length) :
    ∃ t', t.step activity = .ok t' ∧
      t'.Faithful fun side => sent side ++ (activity.buffer? side).toList := by
  cases activity with
  | send sender buffer =>
    obtain ⟨d, hsend, hd⟩ := Direction.faithful_send (h sender) (hwhole sender buffer rfl)
    refine ⟨t.put d sender, ?_, ?_⟩
    · simp only [step, hsend, bind, Except.bind, pure, Except.pure]
    · intro side
      by_cases hside : side = sender
      · subst hside
        simpa only [direction_put, Activity.buffer?, if_true, Option.toList_some] using hd
      · simpa only [direction_put_of_ne t d hside, Activity.buffer?, Ne.symm hside, if_false,
          Option.toList_none, List.append_nil] using h side
  | receive receiver =>
    obtain ⟨d, hreceive, hd⟩ := Direction.faithful_receive (h receiver.other)
    refine ⟨t.put d receiver.other, ?_, ?_⟩
    · simp only [step, hreceive, bind, Except.bind, pure, Except.pure]
    · intro side
      simp only [Activity.buffer?, Option.toList_none, List.append_nil]
      by_cases hside : side = receiver.other
      · subst hside
        rwa [direction_put]
      · rw [direction_put_of_ne t d hside]
        exact h side

theorem faithful_run (h : t.Faithful sent) {activities : List Activity}
    (hwhole : ∀ side buffer, .send side buffer ∈ activities →
      Cipher.blockLength ∣ buffer.length) :
    ∃ t', t.run activities = .ok t' ∧
      t'.Faithful fun side => sent side ++ sentBy activities side := by
  induction activities generalizing t sent with
  | nil =>
    refine ⟨t, rfl, ?_⟩
    intro side
    simpa only [sentBy, List.filterMap_nil, List.append_nil] using h side
  | cons activity activities ih =>
    have hhead : ∀ side buffer, activity = .send side buffer →
        Cipher.blockLength ∣ buffer.length := by
      intro side buffer hactivity
      exact hwhole side buffer (hactivity ▸ List.mem_cons_self)
    have htail : ∀ side buffer, .send side buffer ∈ activities →
        Cipher.blockLength ∣ buffer.length := by
      intro side buffer hmem
      exact hwhole side buffer (List.mem_cons_of_mem activity hmem)
    obtain ⟨middle, hstep, hmiddle⟩ := faithful_step h hhead
    obtain ⟨last, hrun, hlast⟩ := ih hmiddle htail
    refine ⟨last, ?_, ?_⟩
    · simp only [run, hstep, bind, Except.bind, hrun]
    · intro side
      simpa only [sentBy_cons, List.append_assoc] using hlast side

theorem faithful_between {left right : Link} (hleft : left.encryptor.peer = right.decryptor)
    (hright : right.encryptor.peer = left.decryptor) :
    (between left right).Faithful fun _ => [] := by
  intro side
  cases side with
  | left =>
    refine ⟨[], rfl, ?_⟩
    simp only [between, direction, hleft]
    exact .nil _
  | right =>
    refine ⟨[], rfl, ?_⟩
    simp only [between, direction, hright]
    exact .nil _

end Traffic

end CipherLink
