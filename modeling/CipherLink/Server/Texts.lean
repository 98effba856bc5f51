import CipherLink.Frame.Run
import CipherLink.Server.Moves

/-!
# Texts along a run

What the read loops of a server hear along a run, the copies that a relay has to make
of the texts among it, and what is asked of the server, the clients and the run for
the relay to be the only source of texts.
-/

namespace CipherLink

def Message.isText (message : Message) : Bool :=
  message.key == MessageKey.text

structure Hearing where
  handle : Handle
  message : Message
  delivery : Delivery
deriving DecidableEq, Repr

def Session.Heard.hearing? (h : Handle) : Session.Heard → Option Hearing
  | .message m delivery => some ⟨h, m, delivery⟩
  | .nothing | .waiting => none

/-- The copy that is made of a text: with the id of the connection it came from. -/
def Hearing.copy? (x : Hearing) : Option Message :=
  if x.message.isText then some (x.message.stamped x.delivery.connection) else none

def ReadOutcome.message? : ReadOutcome → Option Message
  | .message m _ => some m
  | .empty _ | .closed | .error _ => none

def FrameReader.Hears : FrameReader → List ReadOutcome → Prop
  | r, [] => r.readNext = .waiting
  | r, outcome :: outcomes => ∃ next, r.readNext = .outcome outcome next ∧ next.Hears outcomes

structure FrameWriter.Regular (w : FrameWriter) : Prop where
  codec : w.codec = .records
  positive : 0 < w.block
  whole : Cipher.blockLength ∣ w.block
  bounded : w.block < UInt32.size

def FrameWriter.Fits (w : FrameWriter) (message : Message) : Prop :=
  (Recorded.encode message).length ≤ w.limit ∧
    (Recorded.encode message).length ≤ Frame.greatestLength

def Session.isWritable (session : Session) : Bool :=
  session.isConnected && session.channel.writer.isOpen

namespace Server

def serves (s : Server) (id : ClientId) (h : Handle) : Bool :=
  s.registry.entries.contains (id, h) && (s.sessions[h]?).any Session.isWritable

/-- Whether a client is registered and can be written to throughout a run. -/
def stays (s : Server) (id : ClientId) (h : Handle) : List Move → Bool
  | [] => s.serves id h
  | m :: moves =>
    s.serves id h &&
      match s.move m with
      | some next => next.stays id h moves
      | none => true

inductive Arrive (h : Handle) : List Move → Bytes → Prop
  | nil : Arrive h [] []
  | more (bytes : Bytes) {moves : List Move} {rest : Bytes} (hrest : Arrive h moves rest) :
      Arrive h (.stream h (Source.arrive bytes) :: moves) (bytes ++ rest)
  | other {m : Move} {moves : List Move} {bytes : Bytes} (hm : ∀ change, m ≠ .stream h change)
      (hrest : Arrive h moves bytes) : Arrive h (m :: moves) bytes

def heard? (s : Server) : Move → Option Hearing
  | .read h => (s.sessions[h]?).bind fun session => session.read.1.hearing? h
  | _ => none

def heard (s : Server) : List Move → List Hearing
  | [] => []
  | m :: moves =>
    (s.heard? m).toList ++
      match s.move m with
      | some next => next.heard moves
      | none => []

def copies (s : Server) (moves : List Move) : List Message :=
  (s.heard moves).filterMap Hearing.copy?

end Server

/-- Whether texts are passed on once, and nothing is answered by a text. -/
def Subscriptions.Relays (subscriptions : Subscriptions ServerHandler) : Prop :=
  (subscriptions.snapshot MessageKey.text).count .relayText = 1 ∧
    ∀ key reply, .answer (some reply) ∈ subscriptions.snapshot key → reply ≠ MessageKey.text

/-- Whether a move leaves the texts to the relay. -/
def Move.SparesTexts : Move → Prop
  | .call (.broadcast message) | .call (.sendTo message _) => message.isText = false
  | .subscribe change => ∀ subscriptions : Subscriptions ServerHandler,
      subscriptions.Relays → (change subscriptions).Relays
  | .relay => False
  | _ => True

namespace Action

/-- Whether an action has to do neither with texts nor with the queue. -/
def isPlain : Action → Bool
  | .send message _ | .command (.broadcast message) | .command (.sendTo message _) =>
    !message.isText
  | .takeCommand => false
  | _ => true

/-- Whether the task of a relay may come to an action before it is back at the queue. -/
def isRelayed : Action → Bool
  | .command (.sendTo _ _) | .takeCommand => false
  | _ => true

end Action

/-- A relay is at work: its task has `left` to do before it is back at the queue, and
all other tasks leave texts alone. -/
structure Server.Relaying (s : Server) (left : Task) : Prop where
  owned : ∀ (id : ClientId) (h : Handle), (id, h) ∈ s.registry.entries →
    ∃ session, s.sessions[h]? = some session ∧ session.id = id
  handlers : s.subscriptions.Relays
  worker : ∃ w, s.tasks[w]? = some (left ++ [.takeCommand]) ∧
    ∀ (index : Nat) (task : Task), index ≠ w → s.tasks[index]? = some task →
      ∀ a ∈ task, a.isPlain = true
  left : ∀ a ∈ left, a.isRelayed = true
  queue : ∀ c ∈ s.queue, (Action.command c).isRelayed = true

def Server.workedOff (s : Server) : Bool :=
  s.queue.isEmpty && s.tasks.contains [.takeCommand]

end CipherLink
