import CipherLink.Dialogue
import CipherLink.Session

/-!
# Clients

A client keeps its subscriptions for as long as it lives and has at most one
connection at a time. Connecting takes a while, during which the client has none;
the first frame of the server has to tell the client its id. A connection that
has closed stays in its place until the next one is made. On an isolated network
addresses can be bound, but every dial fails at once.

The sessions of all these connections are kept in the order in which they were
started. The slot of the client holds the place of the one that is in use.

A request subscribes to the key of the response before it is sent, and takes
back the subscription whatever comes of it. The first message with that key
answers it. An answer counts even when the connection has closed since or the
time is over.
-/

namespace CipherLink

inductive ClientError where
  | notConnected
  | alreadyConnected
  | connecting
  | missingIdentity
  | handshake (cause : HandshakeError)
  | frame (cause : FrameError)
  | session (cause : SessionError)
deriving DecidableEq, Repr

def ClientError.message : ClientError → String
  | .notConnected => "client is not connected"
  | .alreadyConnected => "client is already connected"
  | .connecting => "client is already connecting"
  | .missingIdentity => "server did not announce a client identity"
  | .handshake cause => "handshake failed: " ++ cause.message
  | .frame cause => "frame error: " ++ cause.message
  | .session cause => "session error: " ++ cause.message

def ClientError.kind : ClientError → String
  | .notConnected => "NotConnected"
  | .alreadyConnected => "AlreadyConnected"
  | .connecting => "Connecting"
  | .missingIdentity => "MissingIdentity"
  | .handshake _ => "Handshake"
  | .frame _ => "Frame"
  | .session _ => "Session"

/-- The names of the kinds of failure from the outermost to the innermost, except
for those inside a cryptographic failure. -/
def ClientError.path : ClientError → List String
  | .handshake cause => ["Handshake", cause.kind]
  | .frame cause => ["Frame", cause.kind]
  | .session cause => "Session" :: cause.path
  | cause => [cause.kind]

inductive RequestError where
  | timeout (limit : Duration)
  | disconnected
  | send (cause : SessionError)
deriving DecidableEq, Repr

namespace RequestError

def message : RequestError → String
  | .timeout limit => "no response after " ++ limit.render
  | .disconnected => "connection closed while waiting for a response"
  | .send cause => "send failed: " ++ cause.message

/-- Whether the request may be repeated on the same connection. -/
def isTransient : RequestError → Bool
  | .timeout _ => true
  | _ => false

def kind : RequestError → String
  | .timeout _ => "Timeout"
  | .disconnected => "Disconnected"
  | .send _ => "Send"

def path : RequestError → List String
  | .send cause => "Send" :: cause.path
  | cause => [cause.kind]

end RequestError

/-- Whether a dial reaches the listener that is bound to the address. -/
inductive Network where
  | joined
  | isolated
deriving DecidableEq, Repr

def Network.unreachable : ClientError :=
  .handshake (.transport "network is unreachable")

inductive Slot (α : Type) where
  | idle
  | connecting
  | active (session : α)
deriving DecidableEq, Repr

inductive ConnectionState where
  | disconnected
  | connecting
  | connected
  | closed
deriving DecidableEq, Repr

def ConnectionState.name : ConnectionState → String
  | .disconnected => "Disconnected"
  | .connecting => "Connecting"
  | .connected => "Connected"
  | .closed => "Closed"

namespace Slot

def session? {α : Type} : Slot α → Option α
  | .active session => some session
  | .idle | .connecting => none

def state : Slot Session → ConnectionState
  | .idle => .disconnected
  | .connecting => .connecting
  | .active session => if session.isConnected then .connected else .closed

def stateName (slot : Slot Session) : String :=
  slot.state.name

end Slot

/-- What a client does with a message that it hears: it notes it under the
ordinal of the subscription, or answers a request with it. -/
inductive ClientHandler where
  | note (ordinal : Nat)
  | respond (ticket : Nat)
deriving DecidableEq, Repr

structure Note where
  ordinal : Nat
  message : Message
  delivery : Delivery
deriving DecidableEq, Repr

structure Client where
  config : LinkConfig
  files : KeyFiles
  /-- All sessions that were ever started. -/
  sessions : List Session
  held : Slot Handle
  subscriptions : Subscriptions ClientHandler
  noted : List SubscriptionId
  notes : List Note
  requests : Nat
  /-- The answers to requests that still wait, by ticket. -/
  answers : List (Nat × Message)

namespace Client

def new (config : LinkConfig) (files : KeyFiles) : Client :=
  ⟨config, files, [], .idle, .empty, [], [], 0, []⟩

def slot (c : Client) : Slot Session :=
  match c.held with
  | .idle => .idle
  | .connecting => .connecting
  | .active h =>
    match c.sessions[h]? with
    | some session => .active session
    | none => .idle

def setSession (c : Client) (h : Handle) (session : Session) : Client :=
  { c with sessions := c.sessions.set h session }

def changeSession (c : Client) (h : Handle) (change : Session → Session) : Client :=
  { c with sessions := c.sessions.modify h change }

def party (c : Client) (noise : Noise) : Party := ⟨c.config, c.files, noise⟩

def beginConnect (c : Client) : Except ClientError Client :=
  match c.slot with
  | .connecting => .error .connecting
  | .active session =>
    if session.isConnected then .error .alreadyConnected else .ok { c with held := .connecting }
  | .idle => .ok { c with held := .connecting }

def abandonConnect (c : Client) : Client :=
  match c.held with
  | .connecting => { c with held := .idle }
  | _ => c

def startSession (c : Client) (session : Session) : Handle × Client :=
  (c.sessions.length, { c with sessions := c.sessions ++ [session] })

def completeConnect (c : Client) (h : Handle) : Client :=
  { c with held := .active h }

def addConnection (c : Client) (session : Session) : Client :=
  let (h, c) := c.startSession session
  c.completeConnect h

def identityOf : ReadOutcome → Except ClientError (ClientId × Nat)
  | .message message size =>
    match message.assignedIdentity with
    | some id => .ok (id, size)
    | none => .error .missingIdentity
  | .empty _ | .closed => .error .missingIdentity
  | .error cause => .error (.frame cause)

/-- The session of a link on which the server has spoken first; `none` as long as it
says nothing. -/
def greeted? (channel : Channel) : Option (Except ClientError Session) :=
  match channel.reader.readNext with
  | .outcome outcome reader => some do
    let (id, size) ← identityOf outcome
    let session := Session.start id { channel with reader }
    return { session with received := UInt64.ofNat size }
  | .waiting | .broken => none

/-- The session of a link on which the server speaks first. A server that says
nothing is given up after the time `patience`. -/
def openSession (patience : Duration) (channel : Channel) : Except ClientError Session :=
  (greeted? channel).getD (.error (.handshake (.timeout patience)))

def subscribe (c : Client) (key : MessageKey) : Client :=
  let (id, subscriptions) := c.subscriptions.subscribe key (.note c.noted.length)
  { c with subscriptions, noted := c.noted ++ [id] }

def unsubscribe (c : Client) (ordinal : Nat) : Bool × Client :=
  match c.noted[ordinal]? with
  | none => (false, c)
  | some id =>
    let (found, subscriptions) := c.subscriptions.unsubscribe id
    (found, { c with subscriptions })

def handle (message : Message) (delivery : Delivery) (h : ClientHandler) (c : Client) :
    Bool × Client :=
  match h with
  | .note ordinal => (true, { c with notes := c.notes ++ [⟨ordinal, message, delivery⟩] })
  | .respond ticket =>
    if c.answers.any fun answer => answer.1 == ticket then (true, c)
    else (true, { c with answers := c.answers ++ [(ticket, message)] })

def publish (c : Client) (message : Message) (delivery : Delivery) : Client :=
  (Subscriptions.runAll (handle message delivery) (c.subscriptions.snapshot message.key) c).2

/-- One step of the read loop of a session, and whether the loop waits. -/
def readOn (c : Client) (h : Handle) : Bool × Client :=
  match c.sessions[h]? with
  | none => (true, c)
  | some session =>
    match session.read with
    | (.waiting, session) => (true, c.setSession h session)
    | (.nothing, session) => (false, c.setSession h session)
    | (.message message delivery, session) =>
      (false, (c.setSession h session).publish message delivery)

def read (c : Client) : Bool × Client :=
  match c.held.session? with
  | none => (true, c)
  | some h => c.readOn h

/-- Writes on a session; `none` where its writer has no answer. -/
def sendOn (c : Client) (h : Handle)
    (write : Session → Option (Except SessionError Nat × Session)) :
    Option (Except SessionError Nat × Client) :=
  match c.sessions[h]? with
  | none => some (.error .notConnected, c)
  | some session => (write session).map fun out => (out.1, c.setSession h out.2)

def sendError : SessionError → ClientError
  | .notConnected => .notConnected
  | .frame cause => .session (.frame cause)

def send (c : Client) (message : Message) (noise : Noise) :
    Option (Except ClientError Nat × Client) :=
  match c.held.session? with
  | none => some (.error .notConnected, c)
  | some h => do
    let (outcome, c) ← c.sendOn h (·.send message noise)
    return (outcome.mapError sendError, c)

def sendEmpty (c : Client) (noise : Noise) :
    Option (Option (Except SessionError Nat) × Client) :=
  match c.held.session? with
  | none => some (none, c)
  | some h => do
    let (outcome, c) ← c.sendOn h (·.sendEmpty noise)
    return (some outcome, c)

def close (c : Client) : Client :=
  match c.held.session? with
  | none => c
  | some h => c.changeSession h Session.close

def disconnect (c : Client) (message : Message) (noise : Noise) : Client :=
  match c.held.session? with
  | none => c
  | some h => c.changeSession h (·.disconnect message noise)

def isClosed (c : Client) : Bool :=
  match c.slot.session? with
  | none => true
  | some session => !session.isConnected

end Client

structure Request where
  ticket : Nat
  subscription : SubscriptionId
deriving DecidableEq, Repr

namespace Client

def beginRequest (c : Client) (responseKey : MessageKey) : Request × Client :=
  let (id, subscriptions) := c.subscriptions.subscribe responseKey (.respond c.requests)
  (⟨c.requests, id⟩, { c with subscriptions, requests := c.requests + 1 })

def answer? (c : Client) (r : Request) : Option Message :=
  c.answers.lookup r.ticket

def endRequest (c : Client) (r : Request) : Client :=
  { c with
    subscriptions := (c.subscriptions.unsubscribe r.subscription).2
    answers := c.answers.filter fun answer => answer.1 != r.ticket }

/-- What a request that was sent comes to when it is looked at, if its answer is
there, the connection has closed or the time is over. -/
def requestOutcome? (c : Client) (r : Request) (limit : Duration) (timeIsOver : Bool) :
    Option (Except RequestError Message) :=
  match c.answer? r with
  | some message => some (.ok message)
  | none =>
    if c.isClosed then some (.error .disconnected)
    else if timeIsOver then some (.error (.timeout limit))
    else none

end Client

end CipherLink
