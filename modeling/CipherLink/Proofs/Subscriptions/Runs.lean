import CipherLink.Proofs.Subscriptions.Registry
import CipherLink.Subscriptions.Conduct

/-!
# Runs at the subscriptions

A run nests: a publication calls handlers, whose runs may publish again. What relates the
worlds before and after each single use, and those around a publication when it relates
those around the runs of its handlers, relates the worlds before and after every run.
-/

namespace CipherLink.Subscriptions

variable {η μ : Type}

/-- The calls of one publication: the handlers in turn, each with a run that the relation
knows, and whether they were completed. -/
inductive Calls (R : World η μ → World η μ → Prop) (publication : Nat) (message : Message)
    (delivery : Delivery) : List η → World η μ → List Bool → World η μ → Prop where
  | nil (w : World η μ) : Calls R publication message delivery [] w [] w
  | cons {handler : η} {handlers : List η} {completed : Bool} {outcomes : List Bool}
      {u v w : World η μ} :
      R (u.note (.entered publication handler message delivery)) v →
      Calls R publication message delivery handlers (v.note (.left publication completed))
        outcomes w →
      Calls R publication message delivery (handler :: handlers) u (completed :: outcomes) w

def World.begin (w : World η μ) (key : MessageKey) (message : Message) (delivery : Delivery) :
    World η μ :=
  w.note (.began w.log.length key (w.subscriptions.snapshot key) message delivery)

/-- A relation that holds across each single use of the subscriptions and across
publications. -/
structure Rule (R : World η μ → World η μ → Prop) : Prop where
  refl : ∀ w, R w w
  trans : ∀ {u v w}, R u v → R v w → R u w
  store : ∀ (w : World η μ) memory, R w { w with memory }
  subscribe : ∀ (w : World η μ) key handler, R w (w.subscribe key handler).2
  unsubscribe : ∀ (w : World η μ) id, R w (w.unsubscribe id).2
  count : ∀ (w : World η μ) key, R w (w.count key).2
  publish : ∀ (u v : World η μ) key message delivery outcomes,
    Calls R u.log.length message delivery (u.subscriptions.snapshot key)
      (u.begin key message delivery) outcomes v →
    R u (v.note (.ended u.log.length (outcomes.count true)))

theorem exists_calls {R : World η μ → World η μ → Prop} {run : η → World η μ → Bool × World η μ}
    (hrun : ∀ handler w, R w (run handler w).2) (publication : Nat) (message : Message)
    (delivery : Delivery) (handlers : List η) (u : World η μ) :
    ∃ outcomes v, Calls R publication message delivery handlers u outcomes v ∧
      runAll (fun handler => World.call (run handler) publication handler message delivery)
        handlers u = (outcomes.count true, v) := by
  induction handlers generalizing u with
  | nil => exact ⟨[], u, .nil u, rfl⟩
  | cons handler handlers ih =>
    have hfirst := hrun handler (u.note (.entered publication handler message delivery))
    rcases hcall : run handler (u.note (.entered publication handler message delivery)) with
      ⟨completed, v⟩
    rw [hcall] at hfirst
    obtain ⟨outcomes, w, hcalls, hrest⟩ := ih (v.note (.left publication completed))
    refine ⟨completed :: outcomes, w, .cons hfirst hcalls, ?_⟩
    rw [runAll_cons, World.call, hcall]
    dsimp only
    rw [hrest, List.count_cons]
    cases completed <;> rfl

namespace Rule

variable {R : World η μ → World η μ → Prop}

theorem carryOut (hR : Rule R)
    {publish : MessageKey → Message → Delivery → World η μ → Option (Nat × World η μ)}
    (hpublish : ∀ {key message delivery u completed v},
      publish key message delivery u = some (completed, v) → R u v)
    (conduct : Conduct η μ) (w : World η μ) : R w (World.carryOut publish conduct w).2 := by
  induction conduct generalizing w with
  | complete => exact hR.refl w
  | fail => exact hR.refl w
  | load next ih => exact ih w.memory w
  | store memory next ih => exact hR.trans (hR.store w memory) (ih _)
  | subscribe key handler next ih => exact hR.trans (hR.subscribe w key handler) (ih _ _)
  | unsubscribe id next ih => exact hR.trans (hR.unsubscribe w id) (ih _ _)
  | count key next ih => exact hR.trans (hR.count w key) (ih _ _)
  | publish key message delivery next ih =>
    rw [World.carryOut]
    split
    · exact hR.refl w
    · next hserved => exact hR.trans (hpublish hserved) (ih _ _)

theorem publication (hR : Rule R) (behave : η → Message → Delivery → Conduct η μ)
    (depth : Nat) {key : MessageKey} {message : Message} {delivery : Delivery} {u v : World η μ}
    {completed : Nat}
    (h : World.publish behave depth key message delivery u = some (completed, v)) : R u v := by
  induction depth generalizing key message delivery u v completed with
  | zero => cases h
  | succ depth ih =>
    obtain ⟨outcomes, w, hcalls, heq⟩ := exists_calls
      (fun handler => hR.carryOut ih (behave handler message delivery)) u.log.length message
      delivery (u.subscriptions.snapshot key) (u.begin key message delivery)
    have hpublish : World.publish behave (depth + 1) key message delivery u =
        some (outcomes.count true, w.note (.ended u.log.length (outcomes.count true))) := by
      rw [World.begin] at heq
      rw [World.publish, heq]
    rw [hpublish, Option.some.injEq, Prod.mk.injEq] at h
    rw [← h.2]
    exact hR.publish u w key message delivery outcomes hcalls

theorem run (hR : Rule R) (behave : η → Message → Delivery → Conduct η μ) (depth : Nat)
    (conduct : Conduct η μ) (w : World η μ) :
    R w (World.carryOut (World.publish behave depth) conduct w).2 :=
  hR.carryOut (hR.publication behave depth) conduct w

end Rule

end CipherLink.Subscriptions
