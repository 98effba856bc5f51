import CipherLink.Algorithm.Container
import CipherLink.Algorithm.Identifier
import CipherLink.KeyFile

/-!
# Configuration

A span of time is counted in nanoseconds. Its text uses the largest of the units
s, ms, µs and ns in which the whole part is not zero, with as many decimals as
the value needs.
-/

namespace CipherLink

structure Duration where
  nanos : Nat
deriving DecidableEq, Repr, Inhabited

namespace Duration

def ofMillis (ms : Nat) : Duration := ⟨ms * 1000000⟩

def ofSecs (s : Nat) : Duration := ⟨s * 1000000000⟩

def toMillis (d : Duration) : Nat := d.nanos / 1000000

/-- The digits of `part`, padded to `width` places, without trailing zeros. -/
def decimals (width part : Nat) : List Char :=
  let digits := (toString part).toList
  let padded := List.replicate (width - digits.length) '0' ++ digits
  (padded.reverse.dropWhile (· == '0')).reverse

def inUnit (nanos size places : Nat) (unit : String) : String :=
  let whole := nanos / size
  let fraction := decimals places (nanos % size)
  let point := if fraction.isEmpty then [] else ['.']
  toString whole ++ String.ofList (point ++ fraction) ++ unit

def render (d : Duration) : String :=
  if 1000000000 ≤ d.nanos then inUnit d.nanos 1000000000 9 "s"
  else if 1000000 ≤ d.nanos then inUnit d.nanos 1000000 6 "ms"
  else if 1000 ≤ d.nanos then inUnit d.nanos 1000 3 "µs"
  else inUnit d.nanos 1 0 "ns"

end Duration

structure LinkConfig where
  keyExchange : Container KeyExchangeAlgorithm
  symmetric : Container SymmetricAlgorithm
  keyLifetime : KeyLifetime
  handshakeTimeout : Duration
  /-- The greatest length of a field that the other side sends in a handshake. -/
  maxField : Nat
  /-- The greatest length of a frame's payload. -/
  maxFrame : Nat

namespace LinkConfig

def ofAlgorithms (keyExchange : List KeyExchangeAlgorithm) (symmetric : List SymmetricAlgorithm) :
    LinkConfig where
  keyExchange := .ofList keyExchange
  symmetric := .ofList symmetric
  keyLifetime := .ephemeral
  handshakeTimeout := .ofSecs 30
  maxField := 64 * 1024
  maxFrame := 16 * 1024 * 1024

def encrypted : LinkConfig :=
  ofAlgorithms [.rsa 1024, .rsa 2048] [.aes 128, .aes 192, .aes 256]

def unencrypted : LinkConfig :=
  ofAlgorithms [.identity] [.identity]

end LinkConfig

structure SessionConfig where
  /-- How long a session waits before it reads again after a transient fault. -/
  pollInterval : Duration
deriving DecidableEq, Repr

namespace SessionConfig

def standard : SessionConfig := ⟨.ofMillis 100⟩

def closeTimeout (c : SessionConfig) : Duration :=
  ⟨c.pollInterval.nanos * 5⟩

end SessionConfig

structure ServerConfig where
  bindAddress : String
  link : LinkConfig
  session : SessionConfig
  /-- How many events are kept for a listener that lags behind. -/
  eventCapacity : Nat

def ServerConfig.standard : ServerConfig :=
  ⟨"0.0.0.0:5321", .encrypted, .standard, 256⟩

end CipherLink
