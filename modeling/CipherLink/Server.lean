import CipherLink.Dialogue
import CipherLink.Frame
import CipherLink.Registry
import CipherLink.Session

/-!
# Servers

A server admits clients, keeps a registry of those that are connected, tells of
their coming and going and sends messages to them. What it does at the same time
is split into tasks, lists of actions of which each is taken at once; tasks take
turns in any order.

The sessions of all clients that were ever admitted are kept in the order of
their admission, and a handle is a place in this order.

A relay passes the texts of each client on to all of them, with the id of the
sender put in, and disconnects clients that say goodbye. Its handlers only queue
commands; one task carries them out in order.
-/

namespace CipherLink

inductive ServerError where
  | config (detail : String)
  | bind (address detail : String)
  | transport (detail : String)
  | handshake (cause : HandshakeError)
  | establish (cause : FrameError)
deriving DecidableEq, Repr

def ServerError.message : ServerError → String
  | .config detail => "configuration error: " ++ detail
  | .bind address detail => "failed to bind " ++ address ++ ": " ++ detail
  | .transport detail => "transport error: " ++ detail
  | .handshake cause => "handshake failed: " ++ cause.message
  | .establish cause => "failed to establish client: " ++ cause.message

def ServerError.kind : ServerError → String
  | .config _ => "Config"
  | .bind _ _ => "Bind"
  | .transport _ => "Transport"
  | .handshake _ => "Handshake"
  | .establish _ => "Establish"

inductive ServerEvent where
  | connected (id : ClientId)
  | disconnected (id : ClientId)
deriving DecidableEq, Repr

inductive Command where
  | disconnect (id : ClientId)
  | broadcast (message : Message)
  | sendTo (message : Message) (targets : List ClientId)
deriving DecidableEq, Repr

/-- What is done with a message that a client has sent: it is noted under the
ordinal of the subscription, answered, or passed on by the relay. Without a key
for the answer, the sender is disconnected. -/
inductive ServerHandler where
  | note (ordinal : Nat)
  | answer (key : Option MessageKey)
  | relayText
  | relayExit
deriving DecidableEq, Repr

inductive Action where
  /-- Puts the client into the registry, or closes it if its id is taken. -/
  | register (handle : Handle)
  | announce (id : ClientId)
  | watch (handle : Handle)
  | awaitClosed (handle : Handle)
  | close (handle : Handle)
  /-- Looks whether the client is registered, and goes on to remove it. -/
  | check (id : ClientId)
  | remove (id : ClientId)
  | announceGone (id : ClientId)
  | command (c : Command)
  | send (message : Message) (handle : Handle)
  /-- Takes the next command from the queue and comes back for more. -/
  | takeCommand
  /-- Waits until no client is on its way into the registry. -/
  | awaitAdmissions
  | closeAll
deriving DecidableEq, Repr

def Action.isAdmission : Action → Bool
  | .register _ | .announce _ | .watch _ => true
  | _ => false

abbrev Task := List Action

structure ServerNote where
  ordinal : Nat
  message : Message
  delivery : Delivery
deriving DecidableEq, Repr

structure Server where
  config : ServerConfig
  files : KeyFiles
  isRunning : Bool
  sessions : List Session
  registry : Registry Handle
  events : List ServerEvent
  subscriptions : Subscriptions ServerHandler
  noted : List SubscriptionId
  notes : List ServerNote
  queue : List Command
  tasks : List Task
  /-- The number of messages that were sent by commands and calls. -/
  delivered : Nat
  noise : Noise

namespace Server

def new (config : ServerConfig) (files : KeyFiles) (noise : Noise) : Server :=
  ⟨config, files, false, [], .empty, [], .empty, [], [], [], [], 0, noise⟩

def setSession (s : Server) (h : Handle) (session : Session) : Server :=
  { s with sessions := s.sessions.set h session }

def closeSession (s : Server) (h : Handle) : Server :=
  match s.sessions[h]? with
  | some session => s.setSession h session.close
  | none => s

def paddingShare : Nat := 4096

/-- Sends a message to one client. A failure is passed over. -/
def sendOne (s : Server) (message : Message) (h : Handle) : Server :=
  match s.sessions[h]? with
  | none => s
  | some session =>
    match session.send message s.noise with
    | some (.ok _, session) =>
      { s.setSession h session with
        delivered := s.delivered + 1
        noise := s.noise.drop paddingShare }
    | some (.error _, session) => s.setSession h session
    | none => s

/-- Takes an action; `none` if it has to wait. The result holds the actions that
the task takes next and the tasks that are started. -/
def take (s : Server) : Action → Option (Task × List Task × Server)
  | .register h =>
    match s.sessions[h]? with
    | none => some ([], [], s)
    | some session =>
      match s.registry.register session.id h with
      | (true, registry) => some ([.announce session.id, .watch h], [], { s with registry })
      | (false, _) => some ([.close h], [], s)
  | .announce id => some ([], [], { s with events := s.events ++ [.connected id] })
  | .watch h =>
    match s.sessions[h]? with
    | none => some ([], [], s)
    | some session => some ([], [[.awaitClosed h, .check session.id]], s)
  | .awaitClosed h =>
    match s.sessions[h]? with
    | none => some ([], [], s)
    | some session => if session.isConnected then none else some ([], [], s)
  | .close h => some ([], [], s.closeSession h)
  | .check id => some (if s.registry.contains id then [.remove id] else [], [], s)
  | .remove id =>
    match s.registry.unregister id with
    | (some h, registry) => some ([.close h, .announceGone id], [], { s with registry })
    | (none, _) => some ([], [], s)
  | .announceGone id => some ([], [], { s with events := s.events ++ [.disconnected id] })
  | .command (.disconnect id) =>
    match s.registry.get? id with
    | some h => some ([.close h, .check id], [], s)
    | none => some ([], [], s)
  | .command (.broadcast message) => some (s.registry.handles.map (.send message), [], s)
  | .command (.sendTo message targets) =>
    some ((s.registry.select targets).map (.send message), [], s)
  | .send message h => some ([], [], s.sendOne message h)
  | .takeCommand =>
    match s.queue with
    | [] => none
    | c :: queue => some ([.command c, .takeCommand], [], { s with queue })
  | .awaitAdmissions =>
    if s.tasks.any fun task => task.head?.any Action.isAdmission then none else some ([], [], s)
  | .closeAll =>
    some (s.registry.entries.flatMap fun (id, h) => [.close h, .check id], [], s)

def stepTask? (s : Server) (index : Nat) : Option Server := do
  match s.tasks[index]? with
  | some (action :: rest) =>
    let (next, started, s) ← s.take action
    return { s with tasks := s.tasks.set index (next ++ rest) ++ started }
  | _ => none

def spawn (s : Server) (task : Task) : Server :=
  { s with tasks := s.tasks ++ [task] }

def runTasks (s : Server) : Nat → Server
  | 0 => s
  | limit + 1 =>
    match (List.range s.tasks.length).findSome? s.stepTask? with
    | some s => runTasks s limit
    | none => s

def handle (message : Message) (delivery : Delivery) (h : ServerHandler) (s : Server) :
    Bool × Server :=
  match h with
  | .note ordinal => (true, { s with notes := s.notes ++ [⟨ordinal, message, delivery⟩] })
  | .answer (some key) =>
    (true, s.spawn [.command (.sendTo { message with key } [delivery.connection])])
  | .answer none => (true, s.spawn [.command (.disconnect delivery.connection)])
  | .relayText =>
    (true, { s with queue := s.queue ++ [.broadcast (message.stamped delivery.connection)] })
  | .relayExit => (true, { s with queue := s.queue ++ [.disconnect delivery.connection] })

def publish (s : Server) (message : Message) (delivery : Delivery) : Server :=
  (Subscriptions.runAll (handle message delivery) (s.subscriptions.snapshot message.key) s).2

def read (s : Server) (h : Handle) : Bool × Server :=
  match s.sessions[h]? with
  | none => (true, s)
  | some session =>
    match session.read with
    | (.waiting, session) => (true, s.setSession h session)
    | (.nothing, session) => (false, s.setSession h session)
    | (.message message delivery, session) =>
      (false, (s.setSession h session).publish message delivery)

def party (s : Server) (noise : Noise) : Party := ⟨s.config.link, s.files, noise⟩

/-- Tells a new client its id and starts its session; the registration is left
to a task. A server that has stopped drops the client. -/
def establish (s : Server) (id : ClientId) (channel : Channel) : Option Server :=
  if !s.isRunning then some s
  else
    match channel.writer.write (.identity id) s.noise with
    | none => none
    | some (.error _, _) => some s
    | some (.ok written, writer) =>
      let session := { Session.start id { channel with writer } with sent := UInt64.ofNat written }
      some { s with
        sessions := s.sessions ++ [session]
        tasks := s.tasks ++ [[.register s.sessions.length]]
        noise := s.noise.drop paddingShare }

def subscribe (s : Server) (key : MessageKey) : Server :=
  let (id, subscriptions) := s.subscriptions.subscribe key (.note s.noted.length)
  { s with subscriptions, noted := s.noted ++ [id] }

def unsubscribe (s : Server) (ordinal : Nat) : Bool × Server :=
  match s.noted[ordinal]? with
  | none => (false, s)
  | some id =>
    let (found, subscriptions) := s.subscriptions.unsubscribe id
    (found, { s with subscriptions })

def answer (s : Server) (key : MessageKey) (reply : Option MessageKey) : Server :=
  { s with subscriptions := (s.subscriptions.subscribe key (.answer reply)).2 }

end Server

structure Relay where
  text : SubscriptionId
  exit : SubscriptionId
deriving DecidableEq, Repr

namespace Relay

def install (s : Server) : Relay × Server :=
  let (text, subscriptions) := s.subscriptions.subscribe MessageKey.text .relayText
  let (exit, subscriptions) := subscriptions.subscribe MessageKey.exit .relayExit
  (⟨text, exit⟩, { s with subscriptions }.spawn [.takeCommand])

/-- Takes back the subscriptions of a relay. Commands in the queue are still
carried out. -/
def remove (r : Relay) (s : Server) : Server :=
  let (_, subscriptions) := s.subscriptions.unsubscribe r.text
  let (_, subscriptions) := subscriptions.unsubscribe r.exit
  { s with subscriptions }

end Relay

end CipherLink
