import CipherLink.Aes.Block

/-!
# Block encryption

A key of 128, 192 or 256 bits is expanded into round keys, and a block is
encrypted by a round for each of them. Decryption runs the inverse steps in
opposite order, so it undoes encryption for any round keys.
-/

namespace CipherLink.Aes

inductive KeySize where
  | k128
  | k192
  | k256
deriving DecidableEq, Repr

namespace KeySize

def bits : KeySize → Nat
  | .k128 => 128
  | .k192 => 192
  | .k256 => 256

def columns (size : KeySize) : Nat := size.bits / 32

def rounds (size : KeySize) : Nat := size.columns + 6

def ofBits? (n : Nat) : Option KeySize :=
  [k128, k192, k256].find? fun size => size.bits = n

end KeySize

structure RoundKeys where
  initial : Block
  middle : List Block
  final : Block
deriving DecidableEq, Repr

namespace RoundKeys

def roundConstant : Nat → UInt8
  | 0 => 0
  | 1 => 1
  | n + 1 => double (roundConstant n)

def feedback (size : KeySize) (i : Nat) (previous : Column) : Column :=
  if i % size.columns = 0 then
    (previous.rotate.map substitute).add ⟨roundConstant (i / size.columns), 0, 0, 0⟩
  else if size.columns > 6 ∧ i % size.columns = 4 then previous.map substitute
  else previous

/-- The next `count` columns of the expansion, from the `i`th on. The window
holds the last columns before it, as many as the key has. -/
def expandFrom (size : KeySize) (i : Nat) (window : List Column) : Nat → List Column
  | 0 => []
  | count + 1 =>
    match window with
    | [] => []
    | oldest :: others =>
      let column := oldest.add (feedback size i ((oldest :: others).getLastD .zero))
      column :: expandFrom size (i + 1) (others ++ [column]) count

def expand (size : KeySize) (key : List Column) : List Column :=
  key ++ expandFrom size size.columns key (4 * (size.rounds + 1) - size.columns)

def ofBlocks? : List Block → Option RoundKeys
  | initial :: next :: rest =>
    some ⟨initial, (next :: rest).dropLast, (next :: rest).getLastD next⟩
  | _ => none

def ofKey? (size : KeySize) (key : Bytes) : Option RoundKeys := do
  let columns ← Block.columns? key
  if columns.length = size.columns then ofBlocks? (← Block.ofColumns? (expand size columns))
  else none

def encryptRound (x key : Block) : Block :=
  (((x.map (Column.map substitute)).shiftRows).map Column.mix).add key

def decryptRound (key x : Block) : Block :=
  (((x.add key).map Column.unmix).unshiftRows).map (Column.map unsubstitute)

def encrypt (keys : RoundKeys) (x : Block) : Block :=
  let mixed := keys.middle.foldl encryptRound (x.add keys.initial)
  ((mixed.map (Column.map substitute)).shiftRows).add keys.final

def decrypt (keys : RoundKeys) (x : Block) : Block :=
  let mixed := ((x.add keys.final).unshiftRows).map (Column.map unsubstitute)
  (keys.middle.foldr decryptRound mixed).add keys.initial

end RoundKeys

end CipherLink.Aes
