import CipherLink.Client

/-!
# Shared clients

Tasks that share a client may call `connect` at any time. A call is refused at once, or
takes the slot, dials, waits for the first frame of the server and starts a session. It
can fail or be dropped wherever it waits; then it gives the slot back. In the meantime
the others read, send and close on any session that they have a handle of.
-/

namespace CipherLink

inductive ConnectCall where
  | dialling
  | greeting (channel : Channel)
  /-- It has started a session, which is not in the slot yet. -/
  | opened (handle : Handle)
  /-- It has failed, or was dropped, and still has the slot. -/
  | failing (cause : Option ClientError)
  | refused (cause : ClientError)
  | failed (cause : Option ClientError)
  | connected (handle : Handle)

namespace ConnectCall

def isUnderWay : ConnectCall → Bool
  | .dialling | .greeting _ | .opened _ | .failing _ => true
  | .refused _ | .failed _ | .connected _ => false

def session? : ConnectCall → Option Handle
  | .opened h | .connected h => some h
  | _ => none

end ConnectCall

inductive CallEvent where
  /-- Dialling and the handshake have come to an end. -/
  | dialled (outcome : Except HandshakeError Channel)
  | arrives (change : Source → Source)
  | hears
  | expires (elapsed : Duration)
  | dropped
  /-- The call hands its session to the slot, or gives the slot back. -/
  | ends

/-- What happens to a client. To disconnect is to send and to close. -/
inductive ClientMove where
  | connect
  | call (index : Nat) (event : CallEvent)
  | stream (handle : Handle) (change : Source → Source)
  | read (handle : Handle)
  | send (handle : Handle) (message : Message) (noise : Noise)
  | sendEmpty (handle : Handle) (noise : Noise)
  | close (handle : Handle)

def Channel.onSource (c : Channel) (change : Source → Source) : Channel :=
  { c with reader := { c.reader with source := change c.reader.source } }

def Client.advance (c : Client) : ConnectCall → CallEvent → Option (ConnectCall × Client)
  | .dialling, .dialled (.ok channel) => some (.greeting channel, c)
  | .dialling, .dialled (.error cause) => some (.failing (some (.handshake cause)), c)
  | .greeting channel, .arrives change => some (.greeting (channel.onSource change), c)
  | .greeting channel, .hears =>
    match greeted? channel with
    | none => none
    | some (.error cause) => some (.failing (some cause), c)
    | some (.ok session) =>
      let (h, c) := c.startSession session
      some (.opened h, c)
  | .greeting _, .expires elapsed => some (.failing (some (.handshake (.timeout elapsed))), c)
  | .dialling, .dropped | .greeting _, .dropped => some (.failing none, c)
  | .opened h, .ends => some (.connected h, c.completeConnect h)
  | .failing cause, .ends => some (.failed cause, c.abandonConnect)
  | _, _ => none

structure SharedClient where
  client : Client
  calls : List ConnectCall

namespace SharedClient

def new (config : LinkConfig) (files : KeyFiles) : SharedClient := ⟨.new config files, []⟩

def move (s : SharedClient) : ClientMove → Option SharedClient
  | .connect =>
    match s.client.beginConnect with
    | .error cause => some { s with calls := s.calls ++ [.refused cause] }
    | .ok client => some ⟨client, s.calls ++ [.dialling]⟩
  | .call index event => do
    let (call, client) ← s.client.advance (← s.calls[index]?) event
    return ⟨client, s.calls.set index call⟩
  | .stream h change =>
    let feed (session : Session) : Session :=
      { session with channel := session.channel.onSource change }
    some { s with client := s.client.changeSession h feed }
  | .read h => some { s with client := (s.client.readOn h).2 }
  | .send h message noise => do
    let (_, client) ← s.client.sendOn h (·.send message noise)
    return { s with client }
  | .sendEmpty h noise => do
    let (_, client) ← s.client.sendOn h (·.sendEmpty noise)
    return { s with client }
  | .close h => some { s with client := s.client.changeSession h Session.close }

def follow (s : SharedClient) : List ClientMove → Option SharedClient
  | [] => some s
  | m :: moves => (s.move m).bind (follow · moves)

def underWay (s : SharedClient) : Nat :=
  s.calls.countP ConnectCall.isUnderWay

end SharedClient

end CipherLink
