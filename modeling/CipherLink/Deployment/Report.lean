import CipherLink.Deployment

/-!
# Reports

What has happened in a deployment since the last report. Clients are told apart
by numbers, in the order in which their ids are met.
-/

namespace CipherLink

structure Numbering where
  ids : List ClientId
deriving DecidableEq, Repr

namespace Numbering

def empty : Numbering := ⟨[]⟩

def meet (n : Numbering) (id : ClientId) : Numbering :=
  if n.ids.contains id then n else ⟨n.ids ++ [id]⟩

def meetAll (n : Numbering) (ids : List ClientId) : Numbering :=
  ids.foldl meet n

/-- The number of an id that was met, counted from 1. -/
def number (n : Numbering) (id : ClientId) : Nat :=
  n.ids.idxOf id + 1

end Numbering

structure LogEntry where
  ordinal : Nat
  key : MessageKey
  payload : Bytes
  stamped : Option Nat
  sender : Nat
deriving DecidableEq, Repr

structure ClientReport where
  state : String
  number : Option Nat
  sent : Nat
  received : Nat
  log : List LogEntry
deriving DecidableEq, Repr

structure Report where
  /-- The clients that have come, with `true`, or gone, in the order of their
  numbers. -/
  events : List (Nat × Bool)
  connected : List Nat
  clients : List ClientReport
  log : List LogEntry
deriving DecidableEq, Repr

namespace Deployment

def logEntry (n : Numbering) (ordinal : Nat) (message : Message) (delivery : Delivery) :
    LogEntry :=
  ⟨ordinal, message.key, message.payload, message.clientId.map n.number,
    n.number delivery.connection⟩

def eventEntry (n : Numbering) : ServerEvent → Nat × Bool
  | .connected id => (n.number id, true)
  | .disconnected id => (n.number id, false)

def clientReport (n : Numbering) (c : Client) : ClientReport :=
  let session := c.slot.session?
  { state := c.slot.stateName
    number := session.map fun s => n.number s.id
    sent := (session.map fun s => s.sent.toNat).getD 0
    received := (session.map fun s => s.received.toNat).getD 0
    log := c.notes.map fun note => logEntry n note.ordinal note.message note.delivery }

def metIds (d : Deployment) : List ClientId :=
  (d.server.events.map fun
    | .connected id | .disconnected id => id) ++
  d.server.notes.map (·.delivery.connection) ++
  (d.server.notes.filterMap (·.message.clientId)) ++
  d.clients.flatMap fun c => c.notes.filterMap (·.message.clientId)

def report (d : Deployment) (n : Numbering) : Report × Numbering × Deployment :=
  let n := n.meetAll d.metIds
  let comesFirst (a b : Nat × Bool) : Bool := a.1 < b.1 || a.1 == b.1 && (a.2 || !b.2)
  let report : Report :=
    { events := (d.server.events.map (eventEntry n)).mergeSort comesFirst
      connected := (d.server.registry.ids.map n.number).mergeSort (· ≤ ·)
      clients := d.clients.map (clientReport n)
      log := d.server.notes.map fun note => logEntry n note.ordinal note.message note.delivery }
  (report, n, { d with
    server := { d.server with events := [], notes := [] }
    clients := d.clients.map fun c => { c with notes := [] } })

end Deployment

end CipherLink
