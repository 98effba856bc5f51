import CipherLink.Message

/-!
# Subscriptions

Handlers are registered under message keys. A message is published to the
handlers that are registered for its key at that moment, in the order in which
they were registered. What a handler changes concerns later messages only, and
one that fails does not keep the others from running.
-/

namespace CipherLink

structure Delivery where
  connection : ClientId
  size : Nat
deriving DecidableEq, Repr

abbrev SubscriptionId := UInt64

structure Topic (η : Type) where
  key : MessageKey
  handlers : List (SubscriptionId × η)

structure Subscriptions (η : Type) where
  nextId : SubscriptionId
  topics : List (Topic η)

namespace Subscriptions

variable {η : Type}

def empty : Subscriptions η := ⟨1, []⟩

def under (s : Subscriptions η) (key : MessageKey) : List (SubscriptionId × η) :=
  match s.topics.find? fun topic => topic.key == key with
  | some topic => topic.handlers
  | none => []

def addTo (key : MessageKey) (entry : SubscriptionId × η) : List (Topic η) → List (Topic η)
  | [] => [⟨key, [entry]⟩]
  | topic :: topics =>
    if topic.key = key then ⟨key, topic.handlers ++ [entry]⟩ :: topics
    else topic :: addTo key entry topics

def subscribe (s : Subscriptions η) (key : MessageKey) (handler : η) :
    SubscriptionId × Subscriptions η :=
  (s.nextId, ⟨s.nextId + 1, addTo key (s.nextId, handler) s.topics⟩)

def unsubscribe (s : Subscriptions η) (id : SubscriptionId) : Bool × Subscriptions η :=
  let found := s.topics.any fun topic => topic.handlers.any fun entry => entry.1 == id
  let topics := s.topics.map fun topic =>
    { topic with handlers := topic.handlers.filter fun entry => entry.1 != id }
  (found, { s with topics := topics.filter fun topic => !topic.handlers.isEmpty })

def count (s : Subscriptions η) (key : MessageKey) : Nat :=
  (s.under key).length

def snapshot (s : Subscriptions η) (key : MessageKey) : List η :=
  (s.under key).map Prod.snd

def runAll {σ : Type} (run : η → σ → Bool × σ) (handlers : List η) (state : σ) : Nat × σ :=
  handlers.foldl
    (fun (completed, state) handler =>
      let (ok, state) := run handler state
      (if ok then completed + 1 else completed, state))
    (0, state)

def render (s : Subscriptions η) : String :=
  let topics := s.topics.mergeSort fun a b => a.key ≤ b.key
  let counts := topics.map fun topic =>
    toString topic.key.toInt ++ ": " ++ toString topic.handlers.length
  "Subscriptions \x7b handlers: \x7b" ++ String.intercalate ", " counts ++ "\x7d \x7d"

end Subscriptions

end CipherLink
