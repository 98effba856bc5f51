/-!
# Byte strings

Wire data are lists of bytes. Numbers are written most significant byte first;
`ofNat` and `toNat` convert a fixed width, `toInt` reads the same bytes as a
two's complement number. Text is UTF-8, and hexadecimal digits are written in lower
case.

Random bytes are drawn from an endless supply that is given to whatever needs
them, so that everything else is a function of it.
-/

namespace CipherLink

abbrev Bytes := List UInt8

namespace Bytes

/-- The number that the bytes spell, most significant first. -/
def toNat (bs : Bytes) : Nat :=
  bs.foldl (fun n b => n * 256 + b.toNat) 0

def ofNat (width n : Nat) : Bytes :=
  match width with
  | 0 => []
  | w + 1 => UInt8.ofNat (n >>> (8 * w)) :: ofNat w n

@[simp] theorem length_ofNat (w n : Nat) : (ofNat w n).length = w := by
  induction w with
  | zero => rfl
  | succ w ih => simp [ofNat, ih]

def toInt (bs : Bytes) : Int :=
  Int.bmod bs.toNat (1 <<< (8 * bs.length))

def split? (n : Nat) (bs : Bytes) : Option (Bytes × Bytes) :=
  let front := bs.take n
  if front.length = n then some (front, bs.drop n) else none

theorem split?_eq_some {n : Nat} {bs front rest : Bytes} (h : bs.split? n = some (front, rest)) :
    bs = front ++ rest ∧ front.length = n := by
  simp only [split?] at h
  split at h
  · simp only [Option.some.injEq, Prod.mk.injEq] at h
    obtain ⟨rfl, rfl⟩ := h
    exact ⟨(List.take_append_drop n bs).symm, by assumption⟩
  · simp at h

theorem split?_of_le {n : Nat} {bs : Bytes} (h : n ≤ bs.length) :
    split? n bs = some (bs.take n, bs.drop n) :=
  if_pos (List.length_take_of_le h)

theorem split?_of_lt {n : Nat} {bs : Bytes} (h : bs.length < n) : split? n bs = none :=
  if_neg fun heq => by simp only [List.length_take] at heq; omega

theorem split?_append (front rest : Bytes) :
    split? front.length (front ++ rest) = some (front, rest) := by
  simp [split?]

theorem split?_append_right {n : Nat} {bs front rest : Bytes}
    (h : bs.split? n = some (front, rest)) (more : Bytes) :
    split? n (bs ++ more) = some (front, rest ++ more) := by
  obtain ⟨rfl, rfl⟩ := split?_eq_some h
  rw [List.append_assoc]
  exact split?_append _ _

theorem split?_length {n : Nat} {bs front rest : Bytes} (h : bs.split? n = some (front, rest)) :
    rest.length + n = bs.length := by
  obtain ⟨rfl, rfl⟩ := split?_eq_some h
  simp [Nat.add_comm]

def utf8? (bs : Bytes) : Option String :=
  String.fromUTF8? ⟨bs.toArray⟩

def ofString (s : String) : Bytes :=
  s.toUTF8.data.toList

/-- Pieces of `width` bytes (of one byte for width zero), the last one shorter if need be. -/
def chunks (width : Nat) : Bytes → List Bytes
  | [] => []
  | b :: bs => (b :: bs.take (width - 1)) :: chunks width (bs.drop (width - 1))
termination_by bs => bs.length
decreasing_by simp only [List.length_drop, List.length_cons]; omega

theorem chunks_of_ne_nil {bs : Bytes} (h : bs ≠ []) {w : Nat} (hw : 0 < w) :
    chunks w bs = bs.take w :: chunks w (bs.drop w) := by
  obtain ⟨v, rfl⟩ : ∃ v, w = v + 1 := ⟨w - 1, by omega⟩
  cases bs with
  | nil => exact absurd rfl h
  | cons b bs => rw [chunks, Nat.add_sub_cancel, List.take_succ_cons, List.drop_succ_cons]

theorem flatten_chunks (w : Nat) (bs : Bytes) : (chunks w bs).flatten = bs := by
  fun_induction chunks w bs with
  | case1 => rfl
  | case2 b bs ih => rw [List.flatten_cons, ih, List.cons_append, List.take_append_drop]

def hexDigit (n : Nat) : Char :=
  if n < 10 then Char.ofNat (48 + n) else Char.ofNat (87 + n)

def hex (bs : Bytes) : String :=
  String.ofList (bs.flatMap fun b => [hexDigit (b.toNat / 16), hexDigit (b.toNat % 16)])

def hexValue? (c : Char) : Option Nat :=
  if c.isDigit then some (c.toNat - 48)
  else if 'a' ≤ c.toLower ∧ c.toLower ≤ 'f' then some (c.toLower.toNat - 87)
  else none

def ofHexDigits? : List Char → Option Bytes
  | [] => some []
  | [_] => none
  | a :: b :: cs => do
    let high ← hexValue? a
    let low ← hexValue? b
    return UInt8.ofNat (high * 16 + low) :: (← ofHexDigits? cs)

def ofHex? (s : String) : Option Bytes :=
  ofHexDigits? s.toList

end Bytes

abbrev Noise := Nat → UInt8

namespace Noise

/-- A supply that looks random, and another one for each seed. -/
def ofSeed (seed : Nat) : Noise := fun i =>
  let word := UInt64.ofNat (seed * 0x9E3779B97F4A7C15 + (i + 1) * 0xBF58476D1CE4E5B9)
  let word := (word ^^^ (word >>> 30)) * 0xBF58476D1CE4E5B9
  let word := (word ^^^ (word >>> 27)) * 0x94D049BB133111EB
  (word ^^^ (word >>> 31)).toUInt8

def take (noise : Noise) (n : Nat) : Bytes :=
  (List.range n).map noise

def drop (noise : Noise) (n : Nat) : Noise :=
  fun i => noise (n + i)

@[simp] theorem length_take (noise : Noise) (n : Nat) : (noise.take n).length = n := by
  simp [take]

/-- One of two supplies that share no byte. -/
def even (noise : Noise) : Noise :=
  fun i => noise (2 * i)

def odd (noise : Noise) : Noise :=
  fun i => noise (2 * i + 1)

end Noise

end CipherLink
