import CipherLink.Server

/-!
# Moves of a server

What happens to a server, one move after another and in any order: clients are
admitted, bytes arrive and are read, sessions are closed, the server is called and
stopped, and a task takes its next action. A call and a stop only start their task.

What a task sends over such a run is told by its attempts: each message with the client
that it is for, and whether the session of this client took it. One that was not taken
is passed over.
-/

namespace CipherLink

inductive Move where
  /-- A handshake succeeds under an id that was drawn for the client. -/
  | accept (id : ClientId) (channel : Channel)
  /-- Something arrives on the stream of a client, or the stream ends. -/
  | stream (handle : Handle) (change : Source → Source)
  | read (handle : Handle)
  | close (handle : Handle)
  | call (command : Command)
  | subscribe (change : Subscriptions ServerHandler → Subscriptions ServerHandler)
  | relay
  | stop
  | task (index : Nat)

namespace Server

/-- Whether clients are still admitted: also by a server that is being stopped, until
it has waited for them. -/
def accepts (s : Server) : Bool :=
  s.isRunning || s.tasks.contains [.awaitAdmissions, .closeAll]

def accept (s : Server) (id : ClientId) (channel : Channel) : Option Server :=
  if s.accepts then
    ({ s with isRunning := true }.establish id channel).map fun (next : Server) =>
      { next with isRunning := s.isRunning }
  else some s

def stream (s : Server) (h : Handle) (change : Source → Source) : Server :=
  match s.sessions[h]? with
  | some session =>
    let reader := { session.channel.reader with source := change session.channel.reader.source }
    s.setSession h { session with channel := { session.channel with reader } }
  | none => s

def beginStop (s : Server) : Server :=
  if s.isRunning then { s with isRunning := false }.spawn [.awaitAdmissions, .closeAll] else s

/-- The server behind a move; `none` for a task that has to wait, and for an admission
whose first frame has no answer. -/
def move (s : Server) : Move → Option Server
  | .accept id channel => s.accept id channel
  | .stream h change => some (s.stream h change)
  | .read h => some (s.read h).2
  | .close h => some (s.closeSession h)
  | .call c => some (s.spawn [.command c])
  | .subscribe change => some { s with subscriptions := change s.subscriptions }
  | .relay => some (Relay.install s).2
  | .stop => some s.beginStop
  | .task index => s.stepTask? index

def follow (s : Server) : List Move → Option Server
  | [] => some s
  | m :: moves => (s.move m).bind (follow · moves)

def departed (s : Server) (id : ClientId) : Bool :=
  s.events.contains (.disconnected id) || s.tasks.flatten.contains (.announceGone id)

def repeats (s : Server) : Move → Bool
  | .task index =>
    match s.tasks[index]? with
    | some (.register h :: _) =>
      match s.sessions[h]? with
      | some session => s.departed session.id
      | none => false
    | _ => false
  | _ => false

/-- Whether the ids of new clients are fresh throughout a run: none is registered again
after it has left. -/
def isFresh (s : Server) : List Move → Bool
  | [] => true
  | m :: moves =>
    !s.repeats m &&
      match s.move m with
      | some next => next.isFresh moves
      | none => true

def AtRest (s : Server) : Prop :=
  ∀ index, s.stepTask? index = none

end Server

structure Attempt where
  message : Message
  handle : Handle
  isDelivered : Bool
deriving DecidableEq, Repr

namespace Server

def delivers (s : Server) (message : Message) (h : Handle) : Bool :=
  match s.sessions[h]? with
  | none => false
  | some session =>
    match session.send message s.noise with
    | some (.ok _, _) => true
    | some (.error _, _) | none => false

def attempt? (s : Server) (index : Nat) : Move → Option Attempt
  | .task i =>
    if i = index then
      match s.tasks[i]? with
      | some (.send message h :: _) => some ⟨message, h, s.delivers message h⟩
      | _ => none
    else none
  | _ => none

def attempts (s : Server) (index : Nat) : List Move → List Attempt
  | [] => []
  | m :: moves =>
    (s.attempt? index m).toList ++
      match s.move m with
      | some next => next.attempts index moves
      | none => []

end Server

end CipherLink
