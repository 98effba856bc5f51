import CipherLink.Subscriptions.Conduct

/-!
# Scripted handlers

Handlers whose actions are data, so that subscriptions can be observed while
messages are published. A handler notes each message that it gets and then takes
its actions in order. An action may fail, or use the subscriptions from inside
the publication; a publication that nests too deep fails as well.

Subscriptions are named by ordinals, which count them in the order in which they
were made.
-/

namespace CipherLink.Subscriptions

inductive Action where
  | fail
  | subscribe (key : MessageKey) (name : String) (actions : List Action)
  | unsubscribe (ordinal : Nat)
  | count (key : MessageKey)
  | publish (key : MessageKey) (message : Message) (delivery : Delivery)
deriving Inhabited

structure Script where
  name : String
  actions : List Action

inductive Note where
  | heard (handler : String) (message : Message) (delivery : Delivery)
  | subscribed (ordinal : Nat)
  | unsubscribed (found : Bool)
  | counted (n : Nat)
  | published (completed : Nat)

structure Notebook where
  ids : List SubscriptionId
  notes : List Note

def noting (n : Note) (next : Conduct Script Notebook) : Conduct Script Notebook :=
  .load fun book => .store { book with notes := book.notes ++ [n] } next

def Action.conduct (action : Action) (next : Conduct Script Notebook) :
    Conduct Script Notebook :=
  match action with
  | .fail => .fail
  | .subscribe key name actions =>
    .subscribe key ⟨name, actions⟩ fun id => .load fun book =>
      .store { book with ids := book.ids ++ [id] } (noting (.subscribed book.ids.length) next)
  | .unsubscribe ordinal => .load fun book =>
    match book.ids[ordinal]? with
    | none => noting (.unsubscribed false) next
    | some id => .unsubscribe id fun found => noting (.unsubscribed found) next
  | .count key => .count key fun n => noting (.counted n) next
  | .publish key message delivery =>
    .publish key message delivery fun completed => noting (.published completed) next

def Script.conduct (script : Script) (message : Message) (delivery : Delivery) :
    Conduct Script Notebook :=
  noting (.heard script.name message delivery) (script.actions.foldr Action.conduct .complete)

structure Stage extends Notebook where
  subscriptions : Subscriptions Script

namespace Stage

def empty : Stage := ⟨⟨[], []⟩, .empty⟩

def subscribe (s : Stage) (key : MessageKey) (script : Script) : Nat × Stage :=
  let (id, subscriptions) := s.subscriptions.subscribe key script
  (s.ids.length, { s with subscriptions, ids := s.ids ++ [id] })

def unsubscribe (s : Stage) (ordinal : Nat) : Bool × Stage :=
  match s.ids[ordinal]? with
  | none => (false, s)
  | some id =>
    let (found, subscriptions) := s.subscriptions.unsubscribe id
    (found, { s with subscriptions })

def publish (depth : Nat) (key : MessageKey) (message : Message) (delivery : Delivery)
    (s : Stage) : Option (Nat × Stage) :=
  (World.publish Script.conduct depth key message delivery
    ⟨s.subscriptions, s.toNotebook, []⟩).map fun (completed, w) =>
      (completed, ⟨w.memory, w.subscriptions⟩)

end Stage

end CipherLink.Subscriptions
