import CipherLink.CryptoError
import CipherLink.Message
import CipherLink.Stream

/-!
# Frames

A frame is a length prefix, a payload and padding up to a multiple of the block
size. There is always some padding: a frame whose prefix and payload fill whole
blocks carries one block more. Sizes are computed in 64 bits.
-/

namespace CipherLink

namespace Frame

def prefixLength : Nat := 4

def wordBound : Nat := UInt64.size

def addWords? (m n : Nat) : Option Nat :=
  if m + n < wordBound then some (m + n) else none

/-- The size of the frame of a payload; `none` for empty blocks, or when a step
of the computation leaves the range of words. -/
def paddedLength? (length block : Nat) : Option Nat := do
  let used ← addWords? length prefixLength
  if block = 0 then none else addWords? used (block - used % block)

/-- The block size in bytes for one in bits. A block has to hold the prefix and
at least one byte. -/
def blockBytes? (bits : Nat) : Option Nat :=
  if bits / 8 ≤ prefixLength then none else some (bits / 8)

def greatestLength : Nat := 0x7fffffff

end Frame

inductive FrameError where
  | negativeLength (length : Int)
  | frameTooLarge (length limit : Nat)
  | truncated (expected got : Nat)
  | encode (detail : String)
  | decode (detail : String)
  | crypto (cause : CryptoError)
  | closed
  | transport (fault : StreamFault)
deriving DecidableEq, Repr

namespace FrameError

def message : FrameError → String
  | .negativeLength length => "negative frame length: " ++ toString length
  | .frameTooLarge length limit =>
    "frame of " ++ toString length ++ " bytes exceeds limit of " ++ toString limit
  | .truncated expected got =>
    "truncated frame: expected " ++ toString expected ++ " bytes, got " ++ toString got
  | .encode detail => (CodecError.encode detail).message
  | .decode detail => (CodecError.decode detail).message
  | .crypto cause => "crypto error: " ++ cause.message
  | .closed => "stub is closed"
  | .transport fault => "transport error (" ++ fault.kind.name ++ "): " ++ fault.message

def isTransient : FrameError → Bool
  | .transport fault => fault.kind.isTransient
  | _ => false

def ofCodecError : CodecError → FrameError
  | .encode detail => .encode detail
  | .decode detail => .decode detail

def kind : FrameError → String
  | .negativeLength _ => "NegativeLength"
  | .frameTooLarge _ _ => "FrameTooLarge"
  | .truncated _ _ => "Truncated"
  | .encode _ => "Encode"
  | .decode _ => "Decode"
  | .crypto _ => "Crypto"
  | .closed => "Closed"
  | .transport _ => "Transport"

end FrameError

end CipherLink
