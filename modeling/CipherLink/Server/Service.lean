import CipherLink.Algorithm.Identifier
import CipherLink.Server

/-!
# Service

A server is started and stopped, and told what to do from outside. Each of these
is over when no task can go on. It is bound to an address, a host and a port behind
the last colon. The hosts that can be bound are those that name the machine itself.
-/

namespace CipherLink

structure Address where
  host : String
  port : Nat
deriving DecidableEq, Repr

inductive AddressFault where
  | noPort
  | badPort
  | unknownHost
deriving DecidableEq, Repr

def AddressFault.message : AddressFault → String
  | .noPort => "invalid socket address"
  | .badPort => "invalid port value"
  | .unknownHost => "failed to lookup address information"

namespace Address

def portBound : Nat := UInt16.size

/-- The texts in front of the last colon and behind it. -/
def split? (cs : List Char) : Option (List Char × List Char) :=
  match cs.reverse.span (· != ':') with
  | (port, _ :: host) => some (host.reverse, port.reverse)
  | (_, []) => none

def octet? (cs : List Char) : Option Nat := do
  let n ← Decimal.digits? cs
  if n < 256 then some n else none

def octets? (host : String) : Option (List Nat) := do
  let octets ← (host.toList.splitOn '.').mapM octet?
  if octets.length = 4 then some octets else none

/-- Whether a host names the machine itself, or all its interfaces. -/
def isOwnHost (host : String) : Bool :=
  ["localhost", "[::]", "[::1]", "::", "::1"].contains host ||
    match octets? host with
    | some octets => octets.head? == some 127 || octets == [0, 0, 0, 0]
    | none => false

def ofString (s : String) : Except AddressFault Address :=
  match split? s.toList with
  | none => .error .noPort
  | some (host, port) =>
    match Decimal.natural? port with
    | some n =>
      if n < portBound then .ok ⟨String.ofList host, n⟩ else .error .badPort
    | none => .error .badPort

def bindable (s : String) : Except AddressFault Address := do
  let address ← ofString s
  if isOwnHost address.host then return address else throw .unknownHost

end Address

namespace Server

/-- A bound on the steps that the tasks can take before they all wait. Commands
reach every registered client once; closing takes five steps for each. -/
def taskLimit (s : Server) : Nat :=
  (s.tasks.flatten.length + s.queue.length) * (8 * (s.sessions.length + 2))

def runAllTasks (s : Server) : Server :=
  s.runTasks s.taskLimit

/-- Binds an address and admits clients from now on. A server that is running
stays bound where it is. -/
def start (s : Server) (address : String) : Except ServerError Server :=
  if s.isRunning then .ok s
  else
    match Address.bindable address with
    | .ok _ => .ok { s with isRunning := true }
    | .error fault => .error (.bind address fault.message)

def stop (s : Server) : Server :=
  if s.isRunning then ({ s with isRunning := false }.spawn [.awaitAdmissions, .closeAll]).runAllTasks else s

def carryOut (s : Server) (c : Command) : Nat × Server :=
  let after := (s.spawn [.command c]).runAllTasks
  (after.delivered - s.delivered, after)

def broadcast (s : Server) (message : Message) : Nat × Server :=
  s.carryOut (.broadcast message)

def sendTo (s : Server) (message : Message) (targets : List ClientId) : Nat × Server :=
  s.carryOut (.sendTo message targets)

def disconnect (s : Server) (id : ClientId) : Bool × Server :=
  (s.registry.contains id, (s.carryOut (.disconnect id)).2)

end Server

end CipherLink
