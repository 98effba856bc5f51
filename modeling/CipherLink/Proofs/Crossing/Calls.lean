import CipherLink.Proofs.Frame.Writing
import CipherLink.Proofs.Places
import CipherLink.Session.Crossing
import Mathlib.Algebra.Ring.Nat

/-!
# Calls of a crossing

A call that nothing comes in between of does what the session does at once. However
calls interleave, what each caller is told agrees with the frames that were made for
it, and so does the counter of the session with those that were counted.
-/

namespace CipherLink

theorem Session.sendOrder_eq (s : Session) (order : FrameOrder) (noise : Noise) :
    s.sendOrder order noise =
      if s.isConnected then (s.channel.writer.perform order noise).map s.afterWrite
      else some (.error .notConnected, s) := by
  cases order <;> rfl

namespace Crossing

def answered (c : Crossing) (i : Nat) (rest : List (FrameOrder × Noise))
    (results : List (FrameOrder × Except SessionError Nat)) (sender : Session)
    (grants : List Grant) : Crossing :=
  { c.setCaller i ⟨rest, .idle, results⟩ with sender, lock := none, grants }

section

variable {c : Crossing} {i : Nat} {order : FrameOrder} {noise : Noise} {p : Parcel}
  {rest : List (FrameOrder × Noise)} {results : List (FrameOrder × Except SessionError Nat)}

theorem follow_writing (hcaller : c.callers[i]? = some ⟨rest, .writing p, results⟩)
    (hlock : c.lock = some ⟨i, p.frame⟩) :
    ∃ steps, c.follow steps = some (c.answered i rest
      (results ++
        [(p.order, (c.sender.afterWrite (c.writer.deliver p.frame c.writer.encryptor)).1)])
      (c.sender.afterWrite (c.writer.deliver p.frame c.writer.encryptor)).2 c.grants) := by
  have hget := getElem?_set_of_some hcaller
  rw [FrameWriter.deliver, Sink.writeFlush]
  rcases hwrite : c.writer.sink.write p.frame with ⟨sink, _ | fault⟩
  · have hstep : c.write p.frame.length =
        some { c.setWriter { c.writer with sink } with lock := some ⟨i, []⟩ } := by
      simp [write, hlock, hwrite]
    cases hflush : sink.flushFault with
    | none =>
      refine ⟨[.write p.frame.length, .release, .count i], ?_⟩
      simp [follow, step, hstep, release, count, hflush, hcaller, hget, answered, writer, setWriter,
        setCaller, Session.afterWrite]
    | some fault =>
      refine ⟨[.write p.frame.length, .release], ?_⟩
      simp [follow, step, hstep, release, fail, hflush, hcaller, answered, writer, setWriter,
        setCaller, Session.afterWrite]
  · have hstep : c.write p.frame.length = c.fail i sink fault := by
      simp [write, hlock, hwrite]
    refine ⟨[.write p.frame.length], ?_⟩
    simp [follow, step, hstep, fail, hcaller, answered, writer, setWriter, setCaller,
      Session.afterWrite]

theorem follow_waiting (hcaller : c.callers[i]? = some ⟨rest, .waiting order noise, results⟩)
    (hlock : c.lock = none) {result : Except SessionError Nat} {next : Session}
    (h : (c.writer.perform order noise).map c.sender.afterWrite = some (result, next)) :
    ∃ steps grants, c.follow steps =
      some (c.answered i rest (results ++ [(order, result)]) next grants) := by
  have hget := getElem?_set_of_some hcaller
  rw [(c.writer.comes_pack order noise).2] at h
  cases hpack : c.writer.pack order noise with
  | none => simp [hpack] at h
  | some outcome =>
    rw [hpack, Option.map_some, Option.map_some, Option.some.injEq] at h
    cases outcome with
    | error cause =>
      rw [FrameWriter.conclude, Session.afterWrite, Prod.mk.injEq] at h
      obtain ⟨rfl, rfl⟩ := h
      have hstep : c.grant i =
          some (c.setCaller i ⟨rest, .idle, results ++ [(order, .error (.frame cause))]⟩) := by
        simp [grant, hlock, hcaller, hpack]
      refine ⟨[.grant i], c.grants, ?_⟩
      simp [follow, step, hstep, hlock, answered, setCaller, writer]
    | ok packed =>
      obtain ⟨frame, encryptor⟩ := packed
      have hstep : c.grant i =
          some (c.hold i ⟨rest, .writing ⟨order, frame⟩, results⟩ ⟨order, frame⟩ encryptor) := by
        simp only [grant, hlock, hcaller, hpack]
      generalize hheld :
        c.hold i ⟨rest, .writing ⟨order, frame⟩, results⟩ ⟨order, frame⟩ encryptor = held at hstep
      have hcaller' : held.callers[i]? = some ⟨rest, .writing ⟨order, frame⟩, results⟩ := by
        rw [← hheld]
        exact hget _
      have hresult : held.sender.afterWrite (held.writer.deliver frame held.writer.encryptor) =
          (result, next) := by
        rw [← hheld]
        exact h
      obtain ⟨steps, hrun⟩ := follow_writing hcaller' (by rw [← hheld]; rfl)
      refine ⟨.grant i :: steps, held.grants, ?_⟩
      rw [follow, step, hstep, Option.bind_some, hrun, hresult, ← hheld]
      simp only [answered, hold, setCaller, setWriter, List.set_set]

theorem follow_alone (hcaller : c.callers[i]? = some ⟨(order, noise) :: rest, .idle, results⟩)
    (hlock : c.lock = none) {result : Except SessionError Nat} {next : Session}
    (h : c.sender.sendOrder order noise = some (result, next)) :
    ∃ steps grants, c.follow steps =
      some (c.answered i rest (results ++ [(order, result)]) next grants) := by
  have hget := getElem?_set_of_some hcaller
  rw [Session.sendOrder_eq] at h
  by_cases hconnected : c.sender.isConnected = true
  · rw [if_pos hconnected] at h
    have hstep : c.call i = some (c.setCaller i ⟨rest, .waiting order noise, results⟩) := by
      simp [call, hcaller, hconnected]
    obtain ⟨steps, grants, hrun⟩ := follow_waiting (c := c.setCaller i _) (hget _) hlock h
    refine ⟨.call i :: steps, grants, ?_⟩
    rw [follow, step, hstep, Option.bind_some, hrun]
    simp only [answered, setCaller, List.set_set]
  · rw [if_neg hconnected, Option.some.injEq, Prod.mk.injEq] at h
    obtain ⟨rfl, rfl⟩ := h
    refine ⟨[.call i], c.grants, ?_⟩
    simp [follow, step, call, hcaller, hconnected, answered, setCaller, hlock]

end

end Crossing

def CallStage.order? : CallStage → Option FrameOrder
  | .idle => none
  | .waiting order _ => some order
  | .writing p | .counting p => some p.order

def CallStage.parcel? : CallStage → Option Parcel
  | .idle | .waiting _ _ => none
  | .writing p | .counting p => some p

def Parcel.receipt (p : Parcel) : FrameOrder × Nat :=
  (p.order, p.frame.length)

namespace Caller

def ahead (caller : Caller) : List FrameOrder :=
  caller.stage.order?.toList ++ caller.orders.map Prod.fst

def successes (caller : Caller) : List (FrameOrder × Nat) :=
  caller.results.filterMap fun (order, result) => result.toOption.map (order, ·)

def granted (caller : Caller) : List (FrameOrder × Nat) :=
  caller.successes ++ caller.stage.parcel?.toList.map Parcel.receipt

def uncounted (caller : Caller) : Nat :=
  (Parcel.wire caller.stage.parcel?.toList).length

theorem sum_uncounted_set {callers : List Caller} {i : Nat} {old : Caller}
    (h : callers[i]? = some old) (caller : Caller) :
    ((callers.set i caller).map uncounted).sum + old.uncounted =
      (callers.map uncounted).sum + caller.uncounted := by
  induction callers generalizing i with
  | nil => simp at h
  | cons head callers ih =>
    cases i with
    | zero =>
      obtain rfl := Option.some.inj h
      simp only [List.set_cons_zero, List.map_cons, List.sum_cons]
      omega
    | succ i =>
      have hrest := ih h
      simp only [List.set_cons_succ, List.map_cons, List.sum_cons]
      omega

end Caller

namespace Crossing

variable {s r : Session} {orders : List (List (FrameOrder × Noise))} {c c' : Crossing}

def parcels (c : Crossing) : List Parcel :=
  c.grants.map Grant.parcel

def grantsOf (c : Crossing) (i : Nat) : List Parcel :=
  (c.grants.filter fun g => g.caller == i).map Grant.parcel

/-- What the callers of a crossing were told agrees with what they were granted. -/
structure Ledger (s : Session) (orders : List (List (FrameOrder × Noise))) (c : Crossing) :
    Prop where
  told : ∀ (i : Nat) (caller : Caller), c.callers[i]? = some caller → ∃ own, orders[i]? = some own ∧
    caller.results.map Prod.fst ++ caller.ahead = own.map Prod.fst
  granted : ∀ (i : Nat) (caller : Caller), c.callers[i]? = some caller →
    caller.granted = (c.grantsOf i).map Parcel.receipt
  sent : c.sender.sent + UInt64.ofNat (c.callers.map Caller.uncounted).sum =
    s.sent + UInt64.ofNat (Parcel.wire c.parcels).length

theorem ledger_between (s r : Session) (orders : List (List (FrameOrder × Noise))) :
    Ledger s orders (between s r orders) := by
  have hcaller {i : Nat} {caller : Caller} (h : (between s r orders).callers[i]? = some caller) :
      ∃ own, orders[i]? = some own ∧ caller = ⟨own, .idle, []⟩ := by
    rw [between, List.getElem?_map, Option.map_eq_some_iff] at h
    obtain ⟨own, hown, rfl⟩ := h
    exact ⟨own, hown, rfl⟩
  refine ⟨?_, ?_, ?_⟩
  · intro i caller h
    obtain ⟨own, hown, rfl⟩ := hcaller h
    exact ⟨own, hown, rfl⟩
  · intro i caller h
    obtain ⟨own, -, rfl⟩ := hcaller h
    rfl
  · have hnone : ((between s r orders).callers.map Caller.uncounted).sum = 0 := by
      simp [between, Caller.uncounted, CallStage.parcel?, Parcel.wire, Function.comp_def]
    rw [hnone]
    rfl

theorem Ledger.step {i : Nat} {old caller : Caller} (h : Ledger s orders c) (more : List Parcel)
    (hold : c.callers[i]? = some old)
    (hcallers : c'.callers = c.callers.set i caller)
    (hgrants : c'.grants = c.grants ++ more.map (⟨i, ·⟩))
    (htold : caller.results.map Prod.fst ++ caller.ahead = old.results.map Prod.fst ++ old.ahead)
    (hgranted : caller.granted = old.granted ++ more.map Parcel.receipt)
    (hsent : c'.sender.sent + UInt64.ofNat caller.uncounted =
      c.sender.sent + UInt64.ofNat (old.uncounted + (Parcel.wire more).length)) :
    Ledger s orders c' := by
  have hi : i < c.callers.length := (List.getElem?_eq_some_iff.mp hold).1
  have hnext (j : Nat) (caller' : Caller) (hj : c'.callers[j]? = some caller') :
      (j = i ∧ caller' = caller) ∨ (j ≠ i ∧ c.callers[j]? = some caller') := by
    rw [hcallers] at hj
    by_cases hji : j = i
    · subst hji
      rw [List.getElem?_set_self hi, Option.some.injEq] at hj
      exact .inl ⟨rfl, hj.symm⟩
    · rw [List.getElem?_set_ne (Ne.symm hji)] at hj
      exact .inr ⟨hji, hj⟩
  have hof (j : Nat) : c'.grantsOf j = c.grantsOf j ++ if j = i then more else [] := by
    simp only [grantsOf, hgrants, List.filter_append, List.map_append, List.append_cancel_left_eq]
    split
    · next hji => simp [hji, List.filter_map, Function.comp_def]
    · next hji => simp [List.filter_map, Function.comp_def, Ne.symm hji]
  refine ⟨?_, ?_, ?_⟩
  · intro j caller' hj
    obtain ⟨rfl, rfl⟩ | ⟨-, hj⟩ := hnext j caller' hj
    · obtain ⟨own, hown, hall⟩ := h.told j old hold
      exact ⟨own, hown, htold.trans hall⟩
    · exact h.told j caller' hj
  · intro j caller' hj
    obtain ⟨rfl, rfl⟩ | ⟨hji, hj⟩ := hnext j caller' hj
    · rw [hgranted, h.granted j old hold, hof, if_pos rfl, List.map_append]
    · rw [h.granted j caller' hj, hof, if_neg hji, List.append_nil]
  · have hsum := Caller.sum_uncounted_set hold caller
    have hcast := congrArg UInt64.ofNat hsum
    have hall := h.sent
    have hwire : (Parcel.wire c'.parcels).length =
        (Parcel.wire c.parcels).length + (Parcel.wire more).length := by
      simp [parcels, hgrants, Parcel.wire, Function.comp_def]
    rw [hcallers, hwire]
    simp only [UInt64.ofNat_add] at hcast hsent ⊢
    grind

theorem Ledger.mem_orders (h : Ledger s orders c) {i : Nat} {caller : Caller}
    (hcaller : c.callers[i]? = some caller) {order : FrameOrder} (hmem : order ∈ caller.ahead) :
    ∃ own ∈ orders, ∃ o ∈ own, o.1 = order := by
  obtain ⟨own, hown, htold⟩ := h.told i caller hcaller
  have hall : order ∈ own.map Prod.fst := by
    rw [← htold]
    exact List.mem_append_right _ hmem
  obtain ⟨o, ho, horder⟩ := List.mem_map.mp hall
  exact ⟨own, List.mem_of_getElem? hown, o, ho, horder⟩

end Crossing

end CipherLink
