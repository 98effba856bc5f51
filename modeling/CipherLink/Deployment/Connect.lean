import CipherLink.Deployment
import CipherLink.Handshake.Meeting

/-!
# Connecting

A client dials the server, both run the handshake, and the server tells the
client its id. A peer that is not a client may dial the server as well and send
whatever it likes.
-/

namespace CipherLink

/-- What a client learns by connecting, and the symmetric algorithm that the
server has agreed to. -/
structure Welcome where
  id : ClientId
  agreement : Agreement
  serverSide : Descriptor
deriving DecidableEq, Repr

namespace Deployment

/-- The server behind the admission of a peer, whose first bytes may have
arrived; `none` where the server cannot tell the peer its id. -/
def accept (d : Deployment) (link : Link) (peer : Option Nat) (source : Source) :
    Option Deployment := do
  let (noise, d) := d.draw
  let channel := Channel.ofLink link d.server.config.link.maxFrame source
  let server ← d.server.establish (ClientId.ofBytes (noise.take 16)) channel
  if server.sessions.length = d.server.sessions.length then none
  else return { d with server, peers := d.peers ++ [peer] }

def negotiate (d : Deployment) (c : Client) : Pair Link Link × Client × Deployment :=
  let (clientNoise, d) := d.draw
  let (serverNoise, d) := d.draw
  let pair := Handshake.meet (c.party clientNoise) (d.server.party serverNoise)
  (pair, { c with files := pair.left.files },
    { d with server := { d.server with files := pair.right.files } })

def takeGreeting (d : Deployment) : Bytes × Deployment :=
  let h := d.server.sessions.length - 1
  match d.server.sessions[h]? with
  | none => ([], d)
  | some session =>
    let (bytes, channel) := session.channel.drain
    (bytes, { d with server := d.server.setSession h { session with channel } })

def openClient (d : Deployment) (i : Nat) (c : Client) :
    Except ClientError Session × Client × Deployment :=
  let (pair, c, d) := d.negotiate c
  let (greeting, admitted, d) : Source × Bool × Deployment :=
    match pair.right.result? with
    | some (.ok link) =>
      match d.accept link (some i) [.data pair.right.inbox, .silence] with
      | some d =>
        let (bytes, d) := d.takeGreeting
        ([.data (pair.left.inbox ++ bytes), .silence], true, d)
      | none => ([], false, d)
    | _ => ([], false, d)
  let outcome : Except ClientError Session :=
    match pair.left.result? with
    | some (.ok link) =>
      Client.openSession c.config.handshakeTimeout (.ofLink link c.config.maxFrame greeting)
    | some (.error cause) => .error (.handshake cause)
    | none => .error (.handshake (.timeout c.config.handshakeTimeout))
  match outcome with
  | .ok session => (.ok session, c, d)
  | .error cause =>
    (.error cause, c, if admitted then d.hangUp (d.server.sessions.length - 1) else d)

def dial (d : Deployment) (i : Nat) (c : Client) :
    Except ClientError Session × Client × Deployment :=
  match d.network with
  | .isolated => (.error Network.unreachable, c, d)
  | .joined => d.openClient i c

def connect (d : Deployment) (i : Nat) : Option (Except ClientError Welcome) × Deployment :=
  match d.clients[i]? with
  | none => (none, d)
  | some c =>
    if !d.server.isRunning then (none, d)
    else
      match c.beginConnect with
      | .error cause => (some (.error cause), d)
      | .ok c =>
        match (d.hangUpClient i).dial i c with
        | (.error cause, c, d) => (some (.error cause), (d.setClient i c.abandonConnect).settle)
        | (.ok session, c, d) =>
          let serverSide := (d.server.sessions.getLast?.map (·.channel.agreement.symmetric)).getD
            session.channel.agreement.symmetric
          (some (.ok ⟨session.id, session.channel.agreement, serverSide⟩),
            (d.setClient i (c.addConnection session)).settle)

/-- Connects a client twice at once; `none` without a server to connect to. The
second one is refused while the first one is under way, and fares like the first
one if that has failed at once. -/
def connectTwice (d : Deployment) (i : Nat) :
    Option (Except ClientError Welcome × Except ClientError Welcome) × Deployment :=
  let isUnderWay := d.network == .joined && (d.clients[i]?).any fun c => c.beginConnect.isOk
  match d.connect i with
  | (none, d) => (none, d)
  | (some first, d) => (some (first, if isUnderWay then .error .connecting else first), d)

/-- What comes of a client that dials a silent peer and gives up after a while:
the error if it has failed by then, and its states before and after giving up. -/
structure Abandoned where
  failure : Option ClientError
  during : String
  after : String
deriving DecidableEq, Repr

def connectInVain (d : Deployment) (i : Nat) : Option (Abandoned × Deployment) := do
  let c ← d.clients[i]?
  match c.beginConnect with
  | .error cause => return (⟨some cause, c.slot.stateName, c.slot.stateName⟩, d)
  | .ok dialling =>
    let idle := dialling.abandonConnect
    let failure := match d.network with
      | .isolated => some Network.unreachable
      | .joined => none
    let during := if failure.isSome then idle else dialling
    return (⟨failure, during.slot.stateName, idle.slot.stateName⟩,
      ((d.hangUpClient i).setClient i idle).settle)

inductive Intrusion where
  | noServer
  | unreachable
  | heard (hungUp : Bool)
deriving DecidableEq, Repr

/-- Dials the server, sends the bytes, looks whether the server has hung up and
does so too. -/
def intrude (d : Deployment) (bytes : Bytes) : Intrusion × Deployment :=
  if !d.server.isRunning then (.noServer, d)
  else
    match d.network with
    | .isolated => (.unreachable, d)
    | .joined =>
      let (noise, d) := d.draw
      let ended := Handshake.negotiate (d.server.party noise) [.data bytes, .silence] .endless
      let d := { d with server := { d.server with files := ended.files } }
      match ended.result with
      | .error (.timeout _) => (.heard false, d)
      | .error _ => (.heard true, d)
      | .ok link =>
        match d.accept link none ended.source with
        | none => (.heard true, d)
        | some d =>
          let d := d.settle
          let h := d.server.sessions.length - 1
          let hungUp := (d.server.sessions[h]?).any fun session => !session.isConnected
          (.heard hungUp, (d.hangUp h).settle)

end Deployment

end CipherLink
