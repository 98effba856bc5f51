import CipherLink.Client.Shared
import CipherLink.Session.Crossing

/-!
# Sessions in use

Tasks that share a session send over it, close it and read from it at the same time. A
send asks first whether the session is connected, and then waits for the writer; a close
first marks the session as closed, and then waits for the writer to shut it down. In
between the streams below the session change as they like. To disconnect is to send and
to close.
-/

namespace CipherLink

namespace Session

def write (s : Session) (order : FrameOrder) (noise : Noise) :
    Option (Except SessionError Nat × Session) :=
  (s.channel.writer.perform order noise).map s.afterWrite

def shut (s : Session) : Session :=
  { s with channel := { s.channel with writer := s.channel.writer.shutdown } }

end Session

/-- A session with the sends that wait for its writer, the number of closes that wait for
it, and the answers that were given. -/
structure Usage where
  session : Session
  waiting : List (FrameOrder × Noise)
  closing : Nat
  results : List (Except SessionError Nat)

namespace Usage

inductive Step where
  | ask (order : FrameOrder) (noise : Noise)
  /-- The send at a place among those that wait has the writer. -/
  | write (place : Nat)
  | close
  | shut
  | read
  | stream (change : Source → Source)
  | sink (room : Option (Nat × StreamFault)) (flushFault shutdownFault : Option StreamFault)

def start (id : ClientId) (channel : Channel) : Usage :=
  ⟨.start id channel, [], 0, []⟩

def ask (u : Usage) (order : FrameOrder) (noise : Noise) : Usage :=
  if u.session.isConnected then { u with waiting := u.waiting ++ [(order, noise)] }
  else { u with results := u.results ++ [.error .notConnected] }

/-- A send without an answer leaves the session as it was. -/
def write (u : Usage) (place : Nat) : Usage :=
  match u.waiting[place]? with
  | none => u
  | some (order, noise) =>
    let others := u.waiting.eraseIdx place
    match u.session.write order noise with
    | some (result, session) =>
      { u with session, waiting := others, results := u.results ++ [result] }
    | none => { u with waiting := others }

def shut (u : Usage) : Usage :=
  if u.closing = 0 then u else { u with session := u.session.shut, closing := u.closing - 1 }

def changeSink (u : Usage) (change : Sink → Sink) : Usage :=
  let channel := u.session.channel
  let writer := { channel.writer with sink := change channel.writer.sink }
  { u with session := { u.session with channel := { channel with writer } } }

def step (u : Usage) : Step → Usage
  | .ask order noise => u.ask order noise
  | .write place => u.write place
  | .close => { u with session := u.session.ended, closing := u.closing + 1 }
  | .shut => u.shut
  | .read => { u with session := u.session.read.2 }
  | .stream change =>
    { u with session := { u.session with channel := u.session.channel.onSource change } }
  | .sink room flushFault shutdownFault =>
    u.changeSink fun sink => { sink with room, flushFault, shutdownFault }

def after (u : Usage) (steps : List Step) : Usage :=
  steps.foldl step u

end Usage

end CipherLink
