import CipherLink.Client
import CipherLink.Session.Usage
import CipherLink.Subscriptions.Conduct

/-!
# Busy clients

Tasks that share a client send requests over its sessions, subscribe, and publish messages to
its subscriptions, all at the same time. A request registers its handler before it sends, and
then sleeps. When it wakes it looks for its answer, at its session and at the clock, one after
the other, and the others go on in between. A publication calls the handlers that were there
when it began, one at a time; a handler may publish as well, and several sessions may be read.
-/

namespace CipherLink

inductive RequestStage where
  | asking
  | sending
  | waiting
  /-- It has looked for its answer in vain. -/
  | checking
  /-- It has looked at its session as well, which is connected. -/
  | timing
  /-- It knows its outcome and still has its handler. -/
  | leaving (outcome : Except RequestError Message)
  /-- It has taken back its handler. One that was dropped has no outcome. -/
  | ended (outcome : Option (Except RequestError Message))

namespace RequestStage

def isUnderWay : RequestStage → Bool
  | .ended _ => false
  | _ => true

/-- Whether a request is not in the midst of a look. -/
def isAtRest : RequestStage → Bool
  | .asking | .sending | .waiting => true
  | _ => false

end RequestStage

structure RequestCall where
  handle : Handle
  message : Message
  responseKey : MessageKey
  limit : Duration
  request : Request
  stage : RequestStage
  timeIsOver : Bool

inductive RequestEvent where
  /-- It asks whether its session is connected. -/
  | asks
  | writes (noise : Noise)
  | looks
  | checks
  | times
  | expires

/-- A publication under way, named by the number of events before it. -/
structure Publishing where
  name : Nat
  message : Message
  delivery : Delivery
  /-- The handlers that it has still to call. -/
  left : List ClientHandler
  isCalling : Bool
  completed : Nat

inductive BusyMove where
  | connected (session : Session)
  | request (handle : Handle) (message : Message) (responseKey : MessageKey) (limit : Duration)
  | call (index : Nat) (event : RequestEvent)
  | ends (index : Nat)
  | drops (index : Nat)
  | subscribe (key : MessageKey)
  | unsubscribe (ordinal : Nat)
  | read (handle : Handle)
  | publish (key : MessageKey) (message : Message) (delivery : Delivery)
  | enter (publication : Nat)
  | leave (publication : Nat) (completed : Bool)
  | finish (publication : Nat)
  | channel (handle : Handle) (change : Channel → Channel)
  | close (handle : Handle)

namespace Client

def isConnectedOn (c : Client) (h : Handle) : Bool :=
  c.sessions[h]?.any Session.isConnected

/-- Takes a request one step further; `none` where this cannot happen to it. Its handler keeps the
other end of the answer as long as it is registered, so a look finds an answer or none. -/
def attend (c : Client) (r : RequestCall) (event : RequestEvent) : Option (RequestCall × Client) :=
  match r.stage, event with
  | .asking, .asks =>
    if c.isConnectedOn r.handle then some ({ r with stage := .sending }, c)
    else some ({ r with stage := .leaving (.error (.send .notConnected)) }, c)
  | .sending, .writes noise =>
    match c.sendOn r.handle (·.write (.message r.message) noise) with
    | none => none
    | some (.ok _, c) => some ({ r with stage := .waiting }, c)
    | some (.error cause, c) => some ({ r with stage := .leaving (.error (.send cause)) }, c)
  | .waiting, .looks =>
    match c.answer? r.request with
    | some message => some ({ r with stage := .leaving (.ok message) }, c)
    | none => some ({ r with stage := .checking }, c)
  | .checking, .checks =>
    if c.isConnectedOn r.handle then some ({ r with stage := .timing }, c)
    else some ({ r with stage := .leaving (.error .disconnected) }, c)
  | .timing, .times =>
    if r.timeIsOver then some ({ r with stage := .leaving (.error (.timeout r.limit)) }, c)
    else some ({ r with stage := .waiting }, c)
  -- The clock starts behind the send.
  | .waiting, .expires | .checking, .expires | .timing, .expires =>
    some ({ r with timeIsOver := true }, c)
  | _, _ => none

end Client

structure BusyClient where
  client : Client
  calls : List RequestCall
  publications : List Publishing
  log : List (Subscriptions.Event ClientHandler)

namespace BusyClient

def new (config : LinkConfig) (files : KeyFiles) : BusyClient := ⟨.new config files, [], [], []⟩

def note (s : BusyClient) (event : Subscriptions.Event ClientHandler) : BusyClient :=
  { s with log := s.log ++ [event] }

def setPublication (s : BusyClient) (i : Nat) (publication : Publishing) : BusyClient :=
  { s with publications := s.publications.set i publication }

def request (s : BusyClient) (h : Handle) (message : Message) (responseKey : MessageKey)
    (limit : Duration) : BusyClient :=
  let (r, client) := s.client.beginRequest responseKey
  let call : RequestCall := ⟨h, message, responseKey, limit, r, .asking, false⟩
  { s with client, calls := s.calls ++ [call] }.note
    (.subscribed r.subscription responseKey (.respond r.ticket))

def retire (s : BusyClient) (i : Nat) (r : RequestCall)
    (outcome : Option (Except RequestError Message)) : BusyClient :=
  let id := r.request.subscription
  { s with
    client := s.client.endRequest r.request
    calls := s.calls.set i { r with stage := .ended outcome } }.note
      (.unsubscribed id (s.client.subscriptions.unsubscribe id).1)

def subscribe (s : BusyClient) (key : MessageKey) : BusyClient :=
  { s with client := s.client.subscribe key }.note
    (.subscribed s.client.subscriptions.nextId key (.note s.client.noted.length))

/-- An ordinal without a subscription changes nothing. -/
def unsubscribe (s : BusyClient) (ordinal : Nat) : BusyClient :=
  match s.client.noted[ordinal]? with
  | none => s
  | some id =>
    let (found, client) := s.client.unsubscribe ordinal
    { s with client }.note (.unsubscribed id found)

def begin (s : BusyClient) (key : MessageKey) (message : Message) (delivery : Delivery) :
    BusyClient :=
  let handlers := s.client.subscriptions.snapshot key
  let publication : Publishing := ⟨s.log.length, message, delivery, handlers, false, 0⟩
  { s with publications := s.publications ++ [publication] }.note
    (.began s.log.length key handlers message delivery)

/-- A publication calls its next handler. An answer to a request that has ended is not looked at
any more. -/
def enter (s : BusyClient) (i : Nat) : Option BusyClient :=
  match s.publications[i]? with
  | some ⟨name, message, delivery, handler :: left, false, completed⟩ =>
    let heard := { s with client := (Client.handle message delivery handler s.client).2 }
    some ((heard.setPublication i ⟨name, message, delivery, left, true, completed⟩).note
      (.entered name handler message delivery))
  | _ => none

def leave (s : BusyClient) (i : Nat) (completed : Bool) : Option BusyClient :=
  match s.publications[i]? with
  | some ⟨name, message, delivery, left, true, n⟩ =>
    let n := if completed then n + 1 else n
    some ((s.setPublication i ⟨name, message, delivery, left, false, n⟩).note
      (.left name completed))
  | _ => none

def finish (s : BusyClient) (i : Nat) : Option BusyClient :=
  match s.publications[i]? with
  | some ⟨name, _, _, [], false, completed⟩ =>
    some ({ s with publications := s.publications.eraseIdx i }.note (.ended name completed))
  | _ => none

def read (s : BusyClient) (h : Handle) : Option BusyClient :=
  match s.client.sessions[h]? with
  | none => none
  | some session =>
    match session.read with
    | (.waiting, session) | (.nothing, session) =>
      some { s with client := s.client.setSession h session }
    | (.message message delivery, session) =>
      some ({ s with client := s.client.setSession h session }.begin message.key message delivery)

def move (s : BusyClient) : BusyMove → Option BusyClient
  | .connected session => some { s with client := s.client.addConnection session }
  | .request h message responseKey limit => some (s.request h message responseKey limit)
  | .call i event => do
    let (r, client) ← s.client.attend (← s.calls[i]?) event
    return { s with client, calls := s.calls.set i r }
  | .ends i => do
    let r ← s.calls[i]?
    match r.stage with
    | .leaving outcome => some (s.retire i r (some outcome))
    | _ => none
  | .drops i => do
    let r ← s.calls[i]?
    match r.stage with
    | .sending | .waiting => some (s.retire i r none)
    | _ => none
  | .subscribe key => some (s.subscribe key)
  | .unsubscribe ordinal => some (s.unsubscribe ordinal)
  | .read h => s.read h
  | .publish key message delivery => some (s.begin key message delivery)
  | .enter i => s.enter i
  | .leave i completed => s.leave i completed
  | .finish i => s.finish i
  | .channel h change =>
    let use (session : Session) : Session := { session with channel := change session.channel }
    some { s with client := s.client.changeSession h use }
  | .close h => some { s with client := s.client.changeSession h Session.ended }

def follow (s : BusyClient) : List BusyMove → Option BusyClient
  | [] => some s
  | m :: moves => (s.move m).bind (follow · moves)

end BusyClient

end CipherLink
