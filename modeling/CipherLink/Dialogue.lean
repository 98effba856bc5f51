import CipherLink.Config
import CipherLink.CryptoError
import CipherLink.KeyFile
import CipherLink.Stream

/-!
# Dialogues

What one side of a handshake does, step by step: it sends bytes, waits for a
number of bytes and goes on with what it has heard, until it is done or fails. On
the way it may write key files. `Dialogue.run` carries a dialogue on with a
stream.
-/

namespace CipherLink

inductive Stage where
  | keyExchange
  | symmetric
deriving DecidableEq, Repr

def Stage.name : Stage → String
  | .keyExchange => "key exchange"
  | .symmetric => "symmetric"

inductive HandshakeError where
  | noCommonAlgorithm (stage : Stage)
  | negativeLength (length : Int)
  | fieldTooLarge (length limit : Nat)
  | blockSizeTooSmall (bytes : Nat)
  | crypto (cause : CryptoError)
  | protocol (detail : String)
  | timeout (elapsed : Duration)
  | transport (detail : String)
deriving DecidableEq, Repr

namespace HandshakeError

def message : HandshakeError → String
  | .noCommonAlgorithm stage => "no common " ++ stage.name ++ " algorithm"
  | .negativeLength length => "negative length on the wire: " ++ toString length
  | .fieldTooLarge length limit =>
    "handshake field of " ++ toString length ++ " bytes exceeds limit of " ++ toString limit
  | .blockSizeTooSmall bytes => "block size of " ++ toString bytes ++ " bytes is too small"
  | .crypto cause => "crypto error: " ++ cause.message
  | .protocol detail => "protocol error: " ++ detail
  | .timeout elapsed => "handshake timeout after " ++ elapsed.render
  | .transport detail => "transport error: " ++ detail

def isTransient : HandshakeError → Bool
  | .timeout _ => true
  | _ => false

def kind : HandshakeError → String
  | .noCommonAlgorithm _ => "NoCommonAlgorithm"
  | .negativeLength _ => "NegativeLength"
  | .fieldTooLarge _ _ => "FieldTooLarge"
  | .blockSizeTooSmall _ => "BlockSizeTooSmall"
  | .crypto _ => "Crypto"
  | .protocol _ => "Protocol"
  | .timeout _ => "Timeout"
  | .transport _ => "Transport"

end HandshakeError

inductive Phase where
  | start
  | keyExchangeSelected
  | offersExchanged
  | keysExchanged
  | ready
  | failed
deriving DecidableEq, Repr

def Phase.name : Phase → String
  | .start => "Start"
  | .keyExchangeSelected => "ExchangedKeyExchangeAlgorithm"
  | .offersExchanged => "ExchangedOfferLists"
  | .keysExchanged => "KeysExchanged"
  | .ready => "Ready"
  | .failed => "Failed"

inductive Awaited where
  | number
  | content
deriving DecidableEq, Repr

def Awaited.endText : Awaited → String
  | .number => "unexpected end of file"
  | .content => "early eof"

inductive Dialogue (α : Type) where
  | done (result : α)
  | failed (cause : HandshakeError)
  | send (bytes : Bytes) (next : Dialogue α)
  | flush (next : Dialogue α)
  | receive (awaited : Awaited) (n : Nat) (next : Bytes → Dialogue α)
  | enter (phase : Phase) (next : Dialogue α)
  | keep (files : KeyFiles) (next : Dialogue α)

namespace Dialogue

variable {α β : Type}

def bind : Dialogue α → (α → Dialogue β) → Dialogue β
  | .done result, f => f result
  | .failed cause, _ => .failed cause
  | .send bytes next, f => .send bytes (next.bind f)
  | .flush next, f => .flush (next.bind f)
  | .receive awaited n next, f => .receive awaited n fun bytes => (next bytes).bind f
  | .enter phase next, f => .enter phase (next.bind f)
  | .keep files next, f => .keep files (next.bind f)

instance : Monad Dialogue where
  pure := .done
  bind := bind

def ofCrypto : Except CryptoError α → Dialogue α
  | .ok a => .done a
  | .error cause => .failed (.crypto cause)

/-- The dialogue when time runs out: the first `n` operations of the stream come to
an end, the next one does not. -/
def expire (elapsed : Duration) : Nat → Dialogue α → Dialogue α
  | _, .done result => .done result
  | _, .failed cause => .failed cause
  | 0, .send _ _ => .failed (.timeout elapsed)
  | n + 1, .send bytes next => .send bytes (next.expire elapsed n)
  | 0, .flush _ => .failed (.timeout elapsed)
  | n + 1, .flush next => .flush (next.expire elapsed n)
  | 0, .receive _ _ _ => .failed (.timeout elapsed)
  | n + 1, .receive awaited length next =>
    .receive awaited length fun bytes => (next bytes).expire elapsed n
  | n, .enter phase next => .enter phase (next.expire elapsed n)
  | n, .keep files next => .keep files (next.expire elapsed n)

structure Ended (α : Type) where
  result : Except HandshakeError α
  phase : Phase
  files : KeyFiles
  source : Source
  sink : Sink

/-- Carries the dialogue on with a stream. One that waits in vain fails after
the time `patience`. -/
def run (patience : Duration) :
    Dialogue α → Phase → KeyFiles → Source → Sink → Ended α
  | .done result, phase, files, source, sink => ⟨.ok result, phase, files, source, sink⟩
  | .failed cause, _, files, source, sink => ⟨.error cause, .failed, files, source, sink⟩
  | .send bytes next, phase, files, source, sink =>
    match sink.write bytes with
    | (sink, none) => next.run patience phase files source sink
    | (sink, some fault) => ⟨.error (.transport fault.message), .failed, files, source, sink⟩
  | .flush next, phase, files, source, sink =>
    match sink.flushFault with
    | none => next.run patience phase files source sink
    | some fault => ⟨.error (.transport fault.message), .failed, files, source, sink⟩
  | .receive awaited n next, phase, files, source, sink =>
    match source.fill n with
    | .full bytes rest => (next bytes).run patience phase files rest sink
    | .ended _ => ⟨.error (.transport awaited.endText), .failed, files, [], sink⟩
    | .failed _ fault rest => ⟨.error (.transport fault.message), .failed, files, rest, sink⟩
    | .silent rest => ⟨.error (.timeout patience), .failed, files, rest, sink⟩
  | .enter phase next, _, files, source, sink => next.run patience phase files source sink
  | .keep files next, phase, _, source, sink => next.run patience phase files source sink

end Dialogue

end CipherLink
