import CipherLink.Deployment

/-!
# Exchanges

What the clients and the server of a deployment are told to do once they are
connected. Everything is at rest again when it has been done.
-/

namespace CipherLink.Deployment

def idOf? (d : Deployment) (i : Nat) : Option ClientId := do
  let c ← d.clients[i]?
  let session ← c.slot.session?
  return session.id

def start (d : Deployment) (address : String) : Except ServerError Bool × Deployment :=
  match d.server.start address with
  | .ok server => (.ok d.server.isRunning, { d with server })
  | .error cause => (.error cause, d)

def stop (d : Deployment) : Deployment :=
  { d with server := d.server.stop }.settle

def serve {α : Type} (d : Deployment) (act : Server → α × Server) : α × Deployment :=
  let (a, server) := act d.server
  (a, { d with server }.settle)

def installRelay (d : Deployment) : Deployment :=
  let (relay, server) := Relay.install d.server
  { d with server, relay := some relay }

def removeRelay (d : Deployment) : Deployment :=
  match d.relay with
  | none => d
  | some relay => { d with server := relay.remove d.server, relay := none }.settle

def act {α : Type} (d : Deployment) (i : Nat) (step : Client → Noise → Option (α × Client)) :
    Option (α × Deployment) := do
  let c ← d.clients[i]?
  let (noise, d) := d.draw
  let (a, c) ← step c noise
  return (a, (d.setClient i c).settle)

def send (d : Deployment) (i : Nat) (message : Message) :
    Option (Except ClientError Nat × Deployment) :=
  d.act i fun c noise => c.send message noise

def sendEmpty (d : Deployment) (i : Nat) :
    Option (Option (Except SessionError Nat) × Deployment) :=
  d.act i fun c noise => c.sendEmpty noise

def close (d : Deployment) (i : Nat) : Option (Unit × Deployment) :=
  d.act i fun c _ => some ((), c.close)

def disconnect (d : Deployment) (i : Nat) (message : Message) : Option (Unit × Deployment) :=
  d.act i fun c noise => some ((), c.disconnect message noise)

def subscribe (d : Deployment) (i : Nat) (key : MessageKey) : Option (Nat × Deployment) :=
  d.act i fun c _ =>
    let c := c.subscribe key
    some (c.subscriptions.count key, c)

def unsubscribe (d : Deployment) (i : Nat) (ordinal : Nat) : Option (Bool × Deployment) :=
  d.act i fun c _ => some (c.unsubscribe ordinal)

def beginRequest (d : Deployment) (i : Nat) (message : Message) (responseKey : MessageKey) :
    Option (Except RequestError Request × Deployment) :=
  d.act i fun c noise =>
    match c.held.session? with
    | none => some (.error .disconnected, c)
    | some h => do
      let (r, c) := c.beginRequest responseKey
      match ← c.sendOn h (·.send message noise) with
      | (.ok _, c) => return (.ok r, c)
      | (.error cause, c) => return (.error (.send cause), c.endRequest r)

/-- What a request comes to by the time that its limit is reached, or has come to
already. -/
def endRequest (d : Deployment) (i : Nat) (r : Request) (limit : Duration) (timeIsOver : Bool) :
    Option (Option (Except RequestError Message) × Deployment) := do
  let c ← d.clients[i]?
  return (c.requestOutcome? r limit timeIsOver, d.setClient i (c.endRequest r))

def request (d : Deployment) (i : Nat) (message : Message) (responseKey : MessageKey)
    (limit : Duration) : Option (Except RequestError Message × Deployment) := do
  match ← d.beginRequest i message responseKey with
  | (.error cause, d) => return (.error cause, d)
  | (.ok r, d) =>
    let (outcome, d) ← d.endRequest i r limit true
    return (← outcome, d)

/-- What comes of a request that is given up after a while: its outcome if it
has one by then, and the numbers of subscribers of the key of the response before
and after giving up. -/
structure Withdrawn where
  outcome : Option (Except RequestError Message)
  during : Nat
  after : Nat

def requestInVain (d : Deployment) (i : Nat) (message : Message) (responseKey : MessageKey) :
    Option (Withdrawn × Deployment) := do
  let count (d : Deployment) : Nat :=
    ((d.clients[i]?).map fun c => c.subscriptions.count responseKey).getD 0
  match ← d.beginRequest i message responseKey with
  | (.error cause, d) => return (⟨some (.error cause), count d, count d⟩, d)
  | (.ok r, waiting) =>
    let (outcome, d) ← waiting.endRequest i r ⟨0⟩ false
    return (⟨outcome, count (if outcome.isSome then d else waiting), count d⟩, d)

end CipherLink.Deployment
