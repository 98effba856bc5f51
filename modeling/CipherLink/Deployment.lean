import CipherLink.Client
import CipherLink.Server
import CipherLink.Server.Service

/-!
# Deployments

A server, its clients and the connections between them. What one side of a
connection has written is carried to the other side, the read loops and the
tasks go on as far as they can, and so on until nothing moves.
-/

namespace CipherLink

structure Deployment where
  network : Network
  server : Server
  clients : List Client
  /-- The client behind each handle of the server, as long as its connection
  stands. -/
  peers : List (Option Nat)
  relay : Option Relay
  noise : Noise

namespace Deployment

def new (network : Network) (link : LinkConfig × KeyFiles) (clients : List (LinkConfig × KeyFiles))
    (answers : List (MessageKey × Option MessageKey)) (noise : Noise) : Deployment where
  network
  server := answers.foldl (fun s (key, reply) => s.answer key reply)
    (.new { ServerConfig.standard with link := link.1 } link.2 noise.even)
  clients := clients.map fun (config, files) => .new config files
  peers := []
  relay := none
  noise := noise.odd

def setClient (d : Deployment) (i : Nat) (c : Client) : Deployment :=
  { d with clients := d.clients.set i c }

def draw (d : Deployment) : Noise × Deployment :=
  (d.noise.even, { d with noise := d.noise.odd })

def hear (listener : Channel) (bytes : Bytes) (speakerIsOpen : Bool) : Channel :=
  if speakerIsOpen then listener.arrive bytes else (listener.arrive bytes).finish

def expects (c : Channel) : Bool :=
  c.reader.source.contains .silence

/-- Carries what was written on one connection in both directions, and tells
whether there was anything to carry. -/
def carry (d : Deployment) (h : Handle) : Bool × Deployment :=
  match d.server.sessions[h]?, (d.peers[h]?).join with
  | some near, some i =>
    match d.clients[i]? with
    | none => (false, d)
    | some c =>
      match c.held.session?, c.slot.session? with
      | some place, some far =>
        let (down, nearChannel) := near.channel.drain
        let (up, farChannel) := far.channel.drain
        let nearIsOpen := nearChannel.writer.isOpen
        let farIsOpen := farChannel.writer.isOpen
        let moved := !down.isEmpty || !up.isEmpty ||
          (!nearIsOpen && expects farChannel) || (!farIsOpen && expects nearChannel)
        let near := { near with channel := hear nearChannel up farIsOpen }
        let far := { far with channel := hear farChannel down nearIsOpen }
        (moved, { d.setClient i (c.setSession place far) with
          server := d.server.setSession h near })
      | _, _ => (false, d)
  | _, _ => (false, d)

def hangUp (d : Deployment) (h : Handle) : Deployment :=
  match d.server.sessions[h]? with
  | none => d
  | some session =>
    { d with
      server := d.server.setSession h { session with channel := session.channel.finish }
      peers := d.peers.set h none }

def hangUpClient (d : Deployment) (i : Nat) : Deployment :=
  (List.range d.peers.length).foldl
    (fun d h => if (d.peers[h]?).join == some i then d.hangUp h else d) d

def forEach (indices : List Nat) (step : Deployment → Nat → Bool × Deployment)
    (d : Deployment) : Bool × Deployment :=
  indices.foldl
    (fun (moved, d) index =>
      let (again, d) := step d index
      (moved || again, d))
    (false, d)

def readServer (d : Deployment) (h : Handle) : Bool × Deployment :=
  let (waits, server) := d.server.read h
  (!waits, { d with server })

def readClient (d : Deployment) (i : Nat) : Bool × Deployment :=
  match d.clients[i]? with
  | none => (false, d)
  | some c =>
    let (waits, c) := c.read
    (!waits, d.setClient i c)

/-- Everything goes on as far as it can without hearing from the others. -/
def round (d : Deployment) : Bool × Deployment :=
  let handles := List.range d.server.sessions.length
  let d := { d with server := d.server.runAllTasks }
  let (carried, d) := forEach handles carry d
  let (served, d) := forEach handles readServer d
  let (read, d) := forEach (List.range d.clients.length) readClient d
  (carried || served || read, d)

def settleIn (d : Deployment) : Nat → Deployment
  | 0 => d
  | limit + 1 =>
    match d.round with
    | (true, d) => settleIn d limit
    | (false, d) => d

/-- More rounds than there are frames in what one step sets off. -/
def roundLimit : Nat := 10000

def settle (d : Deployment) : Deployment :=
  d.settleIn roundLimit

end Deployment

end CipherLink
