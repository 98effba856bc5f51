import CipherLink.Subscriptions

/-!
# Conduct of handlers

What a handler does in one run is a tree of the uses that it makes of the subscriptions,
each with a branch for every answer. It may use them while a message is published, and
so publish another message inside of the publication. The log tells in order what became
of every use.
-/

namespace CipherLink.Subscriptions

/-- What is done in one run. All handlers share a memory. -/
inductive Conduct (η μ : Type) where
  | complete
  | fail
  | load (next : μ → Conduct η μ)
  | store (memory : μ) (next : Conduct η μ)
  | subscribe (key : MessageKey) (handler : η) (next : SubscriptionId → Conduct η μ)
  | unsubscribe (id : SubscriptionId) (next : Bool → Conduct η μ)
  | count (key : MessageKey) (next : Nat → Conduct η μ)
  | publish (key : MessageKey) (message : Message) (delivery : Delivery)
      (next : Nat → Conduct η μ)

/-- A publication is named by the number of events before it. -/
inductive Event (η : Type) where
  | subscribed (id : SubscriptionId) (key : MessageKey) (handler : η)
  | unsubscribed (id : SubscriptionId) (found : Bool)
  | counted (key : MessageKey) (n : Nat)
  /-- The handlers are those that the publication is to reach. -/
  | began (publication : Nat) (key : MessageKey) (handlers : List η) (message : Message)
      (delivery : Delivery)
  | entered (publication : Nat) (handler : η) (message : Message) (delivery : Delivery)
  | left (publication : Nat) (completed : Bool)
  | ended (publication : Nat) (completed : Nat)
deriving DecidableEq, Repr

structure World (η μ : Type) where
  subscriptions : Subscriptions η
  memory : μ
  log : List (Event η)

namespace World

variable {η μ : Type}

def note (w : World η μ) (event : Event η) : World η μ :=
  { w with log := w.log ++ [event] }

def subscribe (w : World η μ) (key : MessageKey) (handler : η) : SubscriptionId × World η μ :=
  let (id, subscriptions) := w.subscriptions.subscribe key handler
  (id, { w with subscriptions }.note (.subscribed id key handler))

def unsubscribe (w : World η μ) (id : SubscriptionId) : Bool × World η μ :=
  let (found, subscriptions) := w.subscriptions.unsubscribe id
  (found, { w with subscriptions }.note (.unsubscribed id found))

def count (w : World η μ) (key : MessageKey) : Nat × World η μ :=
  let n := w.subscriptions.count key
  (n, w.note (.counted key n))

/-- Does what a tree says, and tells whether it was completed; `publish` serves the
publications in it. -/
def carryOut (publish : MessageKey → Message → Delivery → World η μ → Option (Nat × World η μ)) :
    Conduct η μ → World η μ → Bool × World η μ
  | .complete, w => (true, w)
  | .fail, w => (false, w)
  | .load next, w => carryOut publish (next w.memory) w
  | .store memory next, w => carryOut publish next { w with memory }
  | .subscribe key handler next, w =>
    let (id, w) := w.subscribe key handler
    carryOut publish (next id) w
  | .unsubscribe id next, w =>
    let (found, w) := w.unsubscribe id
    carryOut publish (next found) w
  | .count key next, w =>
    let (n, w) := w.count key
    carryOut publish (next n) w
  | .publish key message delivery next, w =>
    match publish key message delivery w with
    | none => (false, w)
    | some (completed, w) => carryOut publish (next completed) w

def call (run : World η μ → Bool × World η μ) (publication : Nat) (handler : η)
    (message : Message) (delivery : Delivery) (w : World η μ) : Bool × World η μ :=
  let (completed, w) := run (w.note (.entered publication handler message delivery))
  (completed, w.note (.left publication completed))

/-- Publishes a message, inside of which others may be published to the given depth, and
counts the handlers that complete. A handler that publishes deeper than that fails. -/
def publish (behave : η → Message → Delivery → Conduct η μ) (depth : Nat) (key : MessageKey)
    (message : Message) (delivery : Delivery) (w : World η μ) : Option (Nat × World η μ) :=
  match depth with
  | 0 => none
  | depth + 1 =>
    let publication := w.log.length
    let handlers := w.subscriptions.snapshot key
    let (completed, w) := runAll
      (fun handler =>
        call (carryOut (publish behave depth) (behave handler message delivery)) publication
          handler message delivery)
      handlers (w.note (.began publication key handlers message delivery))
    some (completed, w.note (.ended publication completed))

end World

end CipherLink.Subscriptions
