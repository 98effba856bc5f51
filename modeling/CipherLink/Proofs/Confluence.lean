import CipherLink.Handshake.Meeting
import CipherLink.Proofs.Pairs
import Mathlib.Logic.Basic
import Mathlib.Tactic.ByContra

/-!
# Pairs that settle

If two sides can take turns so that both come to an end with nothing left unread, and no
step on this way depends on whether the other side has hung up, then the order of the
turns does not matter: under every schedule the same steps are taken, in another order,
and under every fair one the pair comes to the same end.
-/

namespace CipherLink

variable {α : Type}

@[simp] theorem Turn.other_other (t : Turn) : t.other.other = t := by
  cases t <;> rfl

theorem Turn.eq_other {t u : Turn} (h : t ≠ u) : t = u.other := by
  cases t <;> cases u <;> first | rfl | exact absurd rfl h

namespace Side

/-- The next step of a side as long as the other side is there, and the bytes that it
sends; `none` if it waits or is at its end. -/
def advance? (s : Side α) : Option (Side α × Bytes) :=
  match s.dialogue with
  | .done _ => none
  | .failed cause => if s.phase = .failed then none else some (s.fail cause, [])
  | .send bytes next => some ({ s with dialogue := next }, bytes)
  | .flush next => some ({ s with dialogue := next }, [])
  | .receive _ n next =>
    (s.inbox.split? n).map fun (bytes, inbox) => ({ s with dialogue := next bytes, inbox }, [])
  | .enter phase next => some ({ s with dialogue := next, phase }, [])
  | .keep files next => some ({ s with dialogue := next, files }, [])

variable {s s' : Side α} {sent : Bytes}

theorem step_of_advance? (h : s.advance? = some (s', sent)) {peerIsOver : Bool}
    (hpeer : sent = [] ∨ peerIsOver = false) : s.step peerIsOver = (s', sent) := by
  obtain ⟨dialogue, phase, files, inbox⟩ := s
  cases dialogue with
  | done result => simp [advance?] at h
  | failed cause =>
    simp only [advance?] at h
    split at h
    · simp at h
    · exact Option.some.inj h
  | send bytes next =>
    cases h
    simp only [step]
    rw [if_neg]
    rintro ⟨hover, hsent⟩
    obtain rfl | rfl := hpeer
    · exact hsent rfl
    · simp at hover
  | receive awaited n next =>
    obtain ⟨⟨bytes, rest⟩, hsplit, hnext⟩ := Option.map_eq_some_iff.mp h
    dsimp only at hsplit
    simp only [step, hsplit]
    exact hnext
  | flush next | enter reached next | keep kept next =>
    cases h
    rfl

theorem step_of_stuck (h : s.advance? = none) {peerIsOver : Bool}
    (hpeer : s.isOver = true ∨ peerIsOver = false) : s.step peerIsOver = (s, []) := by
  obtain ⟨dialogue, phase, files, inbox⟩ := s
  cases dialogue with
  | done result => rfl
  | failed cause =>
    simp only [advance?, ite_eq_left_iff, reduceCtorEq, imp_false, not_not] at h
    subst h
    rfl
  | receive awaited n next =>
    simp only [advance?, Option.map_eq_none_iff] at h
    simp only [isOver, Bool.false_eq_true, false_or] at hpeer
    simp only [step, h, hpeer, Bool.false_eq_true, if_false]
  | send bytes next | flush next | enter reached next | keep kept next => simp [advance?] at h

theorem advance?_hear (h : s.advance? = some (s', sent)) (bytes : Bytes) :
    (s.hear bytes).advance? = some (s'.hear bytes, sent) := by
  obtain ⟨dialogue, phase, files, inbox⟩ := s
  cases dialogue with
  | done result => simp [advance?] at h
  | failed cause =>
    simp only [advance?] at h
    split at h
    · simp at h
    · next hphase =>
      cases h
      simp only [hear, advance?, hphase, if_false]
      rfl
  | receive awaited n next =>
    obtain ⟨⟨front, rest⟩, hsplit, hnext⟩ := Option.map_eq_some_iff.mp h
    dsimp only at hsplit
    cases hnext
    simp only [hear, advance?, Bytes.split?_append_right hsplit bytes, Option.map_some]
  | send bytes next | flush next | enter reached next | keep kept next =>
    cases h
    rfl

@[simp] theorem hear_nil (s : Side α) : s.hear [] = s := by
  simp [hear]

@[simp] theorem isOver_hear (s : Side α) (bytes : Bytes) : (s.hear bytes).isOver = s.isOver :=
  rfl

@[simp] theorem result?_hear (s : Side α) (bytes : Bytes) :
    (s.hear bytes).result? = s.result? := rfl

theorem advance?_of_isOver (hover : s.isOver = true) (h : s.advance? = some (s', sent)) :
    sent = [] ∧ s'.isOver = true ∧ s'.inbox = s.inbox ∧ s'.result? = s.result? := by
  obtain ⟨dialogue, phase, files, inbox⟩ := s
  cases dialogue with
  | done result => simp [advance?] at h
  | failed cause =>
    simp only [advance?] at h
    split at h
    · simp at h
    · cases h
      exact ⟨rfl, rfl, rfl, rfl⟩
  | _ => simp [isOver] at hover

end Side

namespace Pair

variable {p q : Pair α α} {t u : Turn} {s : Side α} {sent : Bytes} {n : Nat}

def side (p : Pair α α) : Turn → Side α
  | .left => p.left
  | .right => p.right

theorem ext_side (h : p.side t = q.side t) (h' : p.side t.other = q.side t.other) : p = q := by
  obtain ⟨left, right⟩ := p
  obtain ⟨left', right'⟩ := q
  cases t
  · exact congrArg₂ Pair.mk h h'
  · exact congrArg₂ Pair.mk h' h

theorem side_step (p : Pair α α) (t : Turn) :
    (p.step t).side t = ((p.side t).step (p.side t.other).isOver).1 ∧
      (p.step t).side t.other =
        (p.side t.other).hear ((p.side t).step (p.side t.other).isOver).2 := by
  cases t <;> exact ⟨rfl, rfl⟩

/-- A turn in which a side goes on, whether the other side has hung up or not. -/
structure Advances (p : Pair α α) (t : Turn) (s : Side α) (sent : Bytes) : Prop where
  advance : (p.side t).advance? = some (s, sent)
  unhindered : sent = [] ∨ (p.side t.other).isOver = false

theorem Advances.side (h : p.Advances t s sent) : (p.step t).side t = s ∧
    (p.step t).side t.other = (p.side t.other).hear sent := by
  obtain ⟨hsame, hother⟩ := p.side_step t
  rw [Side.step_of_advance? h.advance h.unhindered] at hsame hother
  exact ⟨hsame, hother⟩

inductive Leads : Pair α α → Nat → Pair α α → Prop
  | refl (p : Pair α α) : Leads p 0 p
  | step {p q : Pair α α} {t : Turn} {s : Side α} {sent : Bytes} {n : Nat}
      (h : p.Advances t s sent) (rest : Leads (p.step t) n q) : Leads p (n + 1) q

theorem Leads.trans {m : Nat} {r : Pair α α} (h : Leads p m q) (h' : Leads q n r) :
    ∃ k, Leads p k r := by
  induction h with
  | refl p => exact ⟨n, h'⟩
  | step hadvances _ ih =>
    obtain ⟨k, hk⟩ := ih h'
    exact ⟨k + 1, .step hadvances hk⟩

structure Quiet (q : Pair α α) : Prop where
  ended : ∀ t, (q.side t).isOver = true
  stuck : ∀ t, (q.side t).advance? = none
  read : ∀ t, (q.side t).inbox = []

/-- Whether a side has hung up with something unread, or on a side that cannot go on
without it. -/
def Stranded (p : Pair α α) : Prop :=
  ∃ t, (p.side t).isOver = true ∧ ((p.side t).inbox ≠ [] ∨
    (p.side t.other).isOver = false ∧ ∀ s, (p.side t.other).advance? ≠ some (s, []))

theorem Stranded.step (h : p.Stranded) (hadvances : p.Advances u s sent) :
    (p.step u).Stranded := by
  obtain ⟨t, hover, hstranded⟩ := h
  obtain ⟨hsame, hother⟩ := hadvances.side
  by_cases htu : u = t
  · subst htu
    obtain ⟨rfl, hover', hinbox, -⟩ := Side.advance?_of_isOver hover hadvances.advance
    rw [Side.hear_nil] at hother
    exact ⟨u, by rw [hsame, hover'], by rwa [hsame, hother, hinbox]⟩
  · obtain rfl : u = t.other := Turn.eq_other htu
    rw [Turn.other_other] at hother
    refine ⟨t, by rw [hother, Side.isOver_hear, hover], .inl ?_⟩
    obtain hinbox | ⟨-, hblocked⟩ := hstranded
    · rw [hother]
      exact fun hnil => hinbox (List.append_eq_nil_iff.mp hnil).1
    · -- The other side is blocked, so it is not the one that goes on.
      obtain rfl | hopen := hadvances.unhindered
      · exact absurd hadvances.advance (hblocked s)
      · rw [Turn.other_other, hover] at hopen
        simp at hopen

theorem Leads.not_stranded (h : Leads p n q) (hq : q.Quiet) : ¬p.Stranded := by
  induction h with
  | refl p =>
    rintro ⟨t, -, hinbox | ⟨hopen, -⟩⟩
    · exact hinbox (hq.read t)
    · simp [hq.ended] at hopen
  | step hadvances _ ih => exact fun hstranded => ih hq (hstranded.step hadvances)

theorem Leads.advances (h : Leads p n q) (hq : q.Quiet)
    (hadvance : (p.side t).advance? = some (s, sent)) : p.Advances t s sent := by
  refine ⟨hadvance, ?_⟩
  by_contra hhindered
  obtain ⟨hsent, hover⟩ := not_or.mp hhindered
  rw [Bool.not_eq_false] at hover
  have hopen : (p.side t).isOver = false := by
    by_contra hover'
    rw [Bool.not_eq_false] at hover'
    exact hsent (Side.advance?_of_isOver hover' hadvance).1
  refine h.not_stranded hq ⟨t.other, hover, .inr ?_⟩
  rw [Turn.other_other, hadvance]
  refine ⟨hopen, fun s' hs' => hsent ?_⟩
  simp only [Option.some.injEq, Prod.mk.injEq] at hs'
  exact hs'.2

theorem Leads.strip (h : Leads p n q) (hq : q.Quiet) (hadvances : p.Advances t s sent) :
    ∃ k, n = k + 1 ∧ Leads (p.step t) k q := by
  induction h generalizing t s sent with
  | refl p =>
    have hstuck := hq.stuck t
    simp [hadvances.advance] at hstuck
  | @step p q u s' sent' n hfirst hrest ih =>
    by_cases htu : t = u
    · subst htu
      exact ⟨n, rfl, hrest⟩
    obtain rfl : t = u.other := Turn.eq_other htu
    obtain ⟨hsame, hother⟩ := hfirst.side
    obtain ⟨hsame', hother'⟩ := hadvances.side
    rw [Turn.other_other] at hother'
    -- After the first turn of the one side the other side can still take its own.
    have hsecond : (p.step u).Advances u.other (s.hear sent') sent :=
      hrest.advances hq (by rw [hother]; exact Side.advance?_hear hadvances.advance sent')
    obtain ⟨k, rfl, hlast⟩ := ih hq hsecond
    obtain ⟨hthere, hhere⟩ := hsecond.side
    rw [Turn.other_other, hsame] at hhere
    have hback : (p.step u.other).Advances u (s'.hear sent) sent' := by
      refine ⟨by rw [hother']; exact Side.advance?_hear hfirst.advance sent, ?_⟩
      by_contra hhindered
      obtain ⟨hsent, hover⟩ := not_or.mp hhindered
      rw [Bool.not_eq_false, hsame'] at hover
      refine hlast.not_stranded hq ⟨u.other, by rw [hthere, Side.isOver_hear, hover], .inl ?_⟩
      rw [hthere]
      exact fun hnil => hsent (List.append_eq_nil_iff.mp hnil).2
    have hcommute : (p.step u.other).step u = (p.step u).step u.other := by
      obtain ⟨hhere', hthere'⟩ := hback.side
      exact ext_side (t := u) (by rw [hhere', hhere]) (by rw [hthere', hsame', hthere])
    exact ⟨k + 1, rfl, .step hback (hcommute ▸ hlast)⟩

theorem Leads.step_regardless (h : Leads p n q) (hq : q.Quiet) (t : Turn) :
    (p.side t).step (p.side t.other).isOver = (p.side t).step false := by
  cases hadvance : (p.side t).advance? with
  | some next =>
    have hadvances := h.advances hq hadvance
    rw [Side.step_of_advance? hadvance hadvances.unhindered,
      Side.step_of_advance? hadvance (.inr rfl)]
  | none =>
    have hpeer : (p.side t).isOver = true ∨ (p.side t.other).isOver = false := by
      by_contra hwaits
      obtain ⟨hopen, hover⟩ := not_or.mp hwaits
      rw [Bool.not_eq_true] at hopen
      rw [Bool.not_eq_false] at hover
      refine h.not_stranded hq ⟨t.other, hover, .inr ?_⟩
      rw [Turn.other_other, hadvance]
      exact ⟨hopen, nofun⟩
    rw [Side.step_of_stuck hadvance hpeer, Side.step_of_stuck hadvance (.inr rfl)]

theorem Leads.step_cases (h : Leads p n q) (hq : q.Quiet) (t : Turn) :
    p.step t = p ∨ ∃ k, n = k + 1 ∧ Leads (p.step t) k q := by
  cases hadvance : (p.side t).advance? with
  | some next => exact .inr (h.strip hq (h.advances hq hadvance))
  | none =>
    left
    obtain ⟨hsame, hother⟩ := p.side_step t
    rw [h.step_regardless hq, Side.step_of_stuck hadvance (.inr rfl)] at hsame hother
    exact ext_side (t := t) hsame (by rw [hother, Side.hear_nil])

theorem Leads.result?_eq (h : Leads p n q) (hover : (p.side t).isOver = true) :
    (p.side t).result? = (q.side t).result? := by
  induction h with
  | refl p => rfl
  | @step p q u s sent n hadvances _ ih =>
    obtain ⟨hsame, hother⟩ := hadvances.side
    by_cases htu : u = t
    · subst htu
      obtain ⟨-, hover', -, hresult⟩ := Side.advance?_of_isOver hover hadvances.advance
      rw [← ih (by rw [hsame, hover']), hsame, hresult]
    · obtain rfl : u = t.other := Turn.eq_other htu
      rw [Turn.other_other] at hother
      rw [← ih (by rw [hother, Side.isOver_hear, hover]), hother, Side.result?_hear]

theorem follow_append (p : Pair α α) (schedule schedule' : List Turn) :
    p.follow (schedule ++ schedule') = (p.follow schedule).follow schedule' :=
  List.foldl_append

theorem Leads.follow (h : Leads p n q) (hq : q.Quiet) (schedule : List Turn) :
    ∃ k, k ≤ n ∧ Leads (p.follow schedule) k q := by
  induction schedule generalizing p n with
  | nil => exact ⟨n, Nat.le_refl n, h⟩
  | cons t schedule ih =>
    obtain hsame | ⟨k, rfl, hnext⟩ := h.step_cases hq t
    · rw [Pair.follow, List.foldl_cons, hsame]
      exact ih h
    · obtain ⟨m, hm, hlast⟩ := ih hnext
      exact ⟨m, Nat.le_succ_of_le hm, hlast⟩

end Pair

/-- Whether each side is given a turn again and again. -/
def Turn.Fair (schedule : Nat → Turn) : Prop :=
  ∀ t n, ∃ m, n ≤ m ∧ schedule m = t

def Turn.alternating (i : Nat) : Turn :=
  if i % 2 = 0 then .left else .right

theorem Turn.fair_alternating : Turn.Fair Turn.alternating := by
  intro t n
  cases t with
  | left => exact ⟨2 * n, by omega, if_pos (by omega)⟩
  | right => exact ⟨2 * n + 1, by omega, if_neg (by omega)⟩

namespace Pair

variable {p q : Pair α α} {schedule : Nat → Turn} {i n : Nat}

def after (p : Pair α α) (schedule : Nat → Turn) (n : Nat) : Pair α α :=
  p.follow ((List.range n).map schedule)

theorem after_succ (p : Pair α α) (schedule : Nat → Turn) (n : Nat) :
    p.after schedule (n + 1) = (p.after schedule n).step (schedule n) := by
  rw [after, List.range_succ, List.map_append, follow_append]
  rfl

theorem Leads.waits (h : Leads (p.after schedule i) (n + 1) q) (hq : q.Quiet) (d : Nat) :
    p.after schedule (i + d) = p.after schedule i ∨
      ∃ j k, k ≤ n ∧ Leads (p.after schedule j) k q := by
  induction d with
  | zero => exact .inl rfl
  | succ d ih =>
    obtain hsame | hcloser := ih
    · rw [← Nat.add_assoc, after_succ, hsame]
      obtain hstays | ⟨k, hk, hnext⟩ := h.step_cases hq (schedule (i + d))
      · exact .inl hstays
      · right
        refine ⟨i + d + 1, k, by omega, ?_⟩
        rwa [after_succ, hsame]
    · exact .inr hcloser

theorem Leads.exists_after (hfair : Turn.Fair schedule) (h : Leads (p.after schedule i) n q)
    (hq : q.Quiet) : ∃ m, p.after schedule m = q := by
  induction n using Nat.strongRecOn generalizing i with
  | ind n ih =>
    cases h with
    | refl => exact ⟨i, rfl⟩
    | @step _ _ t s sent n hadvances rest =>
      obtain ⟨m, hm, hturn⟩ := hfair t i
      obtain ⟨d, rfl⟩ := Nat.exists_eq_add_of_le hm
      have hcloser : ∃ j k, k ≤ n ∧ Leads (p.after schedule j) k q := by
        obtain hsame | hcloser := (Leads.step hadvances rest).waits hq d
        · refine ⟨i + d + 1, n, Nat.le_refl n, ?_⟩
          rwa [after_succ, hsame, hturn]
        · exact hcloser
      obtain ⟨j, k, hk, hleads⟩ := hcloser
      exact ih k (Nat.lt_succ_of_le hk) hleads

/-- Whether a pair comes to this end under every fair schedule, and under no schedule
departs from it: a side that is over has the result it has there, and whether a side has
hung up makes no difference to the other. -/
structure Settles (p q : Pair α α) : Prop where
  reached : ∀ schedule, Turn.Fair schedule → ∃ n, ∀ m, n ≤ m → p.after schedule m = q
  kept : ∀ schedule t, ((p.follow schedule).side t).isOver = true →
    ((p.follow schedule).side t).result? = (q.side t).result?
  regardless : ∀ schedule t, ((p.follow schedule).side t).step
      ((p.follow schedule).side t.other).isOver = ((p.follow schedule).side t).step false

theorem Quiet.step (hq : q.Quiet) (t : Turn) : q.step t = q := by
  obtain hsame | ⟨k, hk, -⟩ := (Leads.refl q).step_cases hq t
  · exact hsame
  · simp at hk

theorem Leads.settles (h : Leads p n q) (hq : q.Quiet) : p.Settles q where
  reached := by
    intro schedule hfair
    have hstart : Leads (p.after schedule 0) n q := h
    obtain ⟨m, hm⟩ := hstart.exists_after hfair hq
    refine ⟨m, fun k hk => ?_⟩
    obtain ⟨d, rfl⟩ := Nat.exists_eq_add_of_le hk
    induction d with
    | zero => exact hm
    | succ d ih => rw [← Nat.add_assoc, after_succ, ih (Nat.le_add_right m d), hq.step]
  kept := by
    intro schedule t hover
    obtain ⟨k, -, hleads⟩ := h.follow hq schedule
    exact hleads.result?_eq hover
  regardless := by
    intro schedule t
    obtain ⟨k, -, hleads⟩ := h.follow hq schedule
    exact hleads.step_regardless hq t

end Pair

inductive Side.Runs : Side α → Bytes → Side α → Prop
  | refl (s : Side α) : Runs s [] s
  | step {s middle last : Side α} {sent more : Bytes} (h : s.advance? = some (middle, sent))
      (rest : Runs middle more last) : Runs s (sent ++ more) last

namespace Side

variable {β : Type} {s middle last : Side α} {sent more : Bytes}

theorem Runs.silent (h : s.advance? = some (middle, [])) (rest : Runs middle more last) :
    Runs s more last :=
  .step h rest

theorem Runs.trans (h : Runs s sent middle) (h' : Runs middle more last) :
    Runs s (sent ++ more) last := by
  induction h with
  | refl s => exact h'
  | step hadvance _ ih =>
    rw [List.append_assoc]
    exact .step hadvance (ih h')

theorem Runs.hear (h : Runs s sent last) (bytes : Bytes) :
    Runs (s.hear bytes) sent (last.hear bytes) := by
  induction h with
  | refl s => exact .refl _
  | step hadvance _ ih => exact .step (advance?_hear hadvance bytes) ih

theorem Runs.isOver_of_start (h : Runs s sent last) (hopen : last.isOver = false) :
    s.isOver = false := by
  induction h with
  | refl s => exact hopen
  | step hadvance _ ih =>
    by_contra hover
    rw [Bool.not_eq_false] at hover
    have hmiddle := (advance?_of_isOver hover hadvance).2.1
    simp [ih hopen] at hmiddle

theorem runs_of_converse {d : Dialogue α} {heard rest : Bytes} {a : α}
    (h : d.converse heard = some (a, sent, rest)) (f : α → Dialogue β) (phase : Phase)
    (files : KeyFiles) : ∃ phase' files',
      Runs ⟨d >>= f, phase, files, heard⟩ sent ⟨f a, phase', files', rest⟩ := by
  change ∃ phase' files', Runs ⟨d.bind f, phase, files, heard⟩ sent ⟨f a, phase', files', rest⟩
  induction d generalizing phase files heard sent with
  | done result =>
    simp only [Dialogue.converse, Option.some.injEq, Prod.mk.injEq] at h
    obtain ⟨rfl, rfl, rfl⟩ := h
    exact ⟨phase, files, .refl _⟩
  | failed cause => simp [Dialogue.converse] at h
  | send bytes next ih =>
    obtain ⟨⟨b, more, left⟩, hnext, hall⟩ := Option.map_eq_some_iff.mp h
    simp only [Prod.mk.injEq] at hall
    obtain ⟨rfl, rfl, rfl⟩ := hall
    obtain ⟨phase', files', hruns⟩ := ih hnext phase files
    exact ⟨phase', files', .step rfl hruns⟩
  | flush next ih =>
    obtain ⟨phase', files', hruns⟩ := ih h phase files
    exact ⟨phase', files', .silent rfl hruns⟩
  | receive awaited n next ih =>
    simp only [Dialogue.converse] at h
    split at h
    · next bytes left hsplit =>
      obtain ⟨phase', files', hruns⟩ := ih bytes h phase files
      refine ⟨phase', files', .silent ?_ hruns⟩
      simp only [advance?, Dialogue.bind, hsplit, Option.map_some]
    · simp at h
  | enter reached next ih =>
    obtain ⟨phase', files', hruns⟩ := ih h reached files
    exact ⟨phase', files', .silent rfl hruns⟩
  | keep kept next ih =>
    obtain ⟨phase', files', hruns⟩ := ih h phase kept
    exact ⟨phase', files', .silent rfl hruns⟩

end Side

namespace Pair

variable {p : Pair α α} {t : Turn} {sent : Bytes} {s : Side α}

theorem exists_leads_of_runs (h : (p.side t).Runs sent s)
    (hother : sent = [] ∨ (p.side t.other).isOver = false) :
    ∃ n q, Leads p n q ∧ q.side t = s ∧ q.side t.other = (p.side t.other).hear sent := by
  generalize hstart : p.side t = start at h
  induction h generalizing p with
  | refl start => exact ⟨0, p, .refl p, hstart, (Side.hear_nil _).symm⟩
  | @step start middle last sent more hadvance _ ih =>
    have hadvances : p.Advances t middle sent :=
      ⟨by rw [hstart, hadvance], hother.imp_left fun hnil => (List.append_eq_nil_iff.mp hnil).1⟩
    obtain ⟨hsame, hheard⟩ := hadvances.side
    have hothers : more = [] ∨ ((p.step t).side t.other).isOver = false :=
      hother.imp (fun hnil => (List.append_eq_nil_iff.mp hnil).2)
        fun hopen => by rw [hheard, Side.isOver_hear, hopen]
    obtain ⟨n, q, hleads, hlast, hall⟩ := ih hothers hsame
    refine ⟨n + 1, q, .step hadvances hleads, hlast, ?_⟩
    rw [hall, hheard]
    simp only [Side.hear, List.append_assoc]

theorem exists_leads_left {l l' r : Side α} (h : l.Runs sent l')
    (hother : sent = [] ∨ r.isOver = false) : ∃ n, Leads ⟨l, r⟩ n ⟨l', r.hear sent⟩ := by
  obtain ⟨n, q, hleads, hsame, hheard⟩ :=
    exists_leads_of_runs (p := ⟨l, r⟩) (t := .left) h hother
  obtain rfl : q = ⟨l', r.hear sent⟩ := ext_side (t := .left) hsame hheard
  exact ⟨n, hleads⟩

theorem exists_leads_right {l r r' : Side α} (h : r.Runs sent r')
    (hother : sent = [] ∨ l.isOver = false) : ∃ n, Leads ⟨l, r⟩ n ⟨l.hear sent, r'⟩ := by
  obtain ⟨n, q, hleads, hsame, hheard⟩ :=
    exists_leads_of_runs (p := ⟨l, r⟩) (t := .right) h hother
  obtain rfl : q = ⟨l.hear sent, r'⟩ := ext_side (t := .right) hsame hheard
  exact ⟨n, hleads⟩

theorem exists_leads_of_silence {l l' r r' : Side α} (h : l.Runs [] l') (h' : r.Runs [] r') :
    ∃ n, Leads ⟨l, r⟩ n ⟨l', r'⟩ := by
  obtain ⟨_, hleft⟩ := exists_leads_left (r := r) h (.inl rfl)
  obtain ⟨_, hright⟩ := exists_leads_right (l := l') h' (.inl rfl)
  rw [Side.hear_nil] at hleft hright
  exact hleft.trans hright

theorem exists_leads_of_exchange {l l₁ l₂ r r₁ r₂ : Side α} {said said' : Bytes}
    (hspeak : l.Runs said l₁) (hspeak' : r.Runs said' r₁) (hwaits : l₁.isOver = false)
    (hwaits' : r₁.isOver = false) (hlisten : (l₁.hear said').Runs [] l₂)
    (hlisten' : (r₁.hear said).Runs [] r₂) : ∃ n, Leads ⟨l, r⟩ n ⟨l₂, r₂⟩ := by
  obtain ⟨_, hleft⟩ := exists_leads_left hspeak (.inr (hspeak'.isOver_of_start hwaits'))
  obtain ⟨_, hright⟩ := exists_leads_right (hspeak'.hear said) (.inr hwaits)
  obtain ⟨_, hspoken⟩ := hleft.trans hright
  obtain ⟨_, hheard⟩ := exists_leads_of_silence hlisten hlisten'
  exact hspoken.trans hheard

end Pair

end CipherLink
