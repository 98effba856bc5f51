import CipherLink.Bytes

/-!
# Item headers

Every CBOR item starts with a header: a major type, and an argument that is
held in the first byte or in the 1, 2, 4 or 8 bytes behind it. `Header.write`
always takes the shortest form and `Header.read` takes any.
-/

namespace CipherLink.Cbor

/-- Why bytes could not be read as an item: they ended inside it, they are not
well formed, they mean something else than what is asked for, or they nest too
deep. -/
inductive Fault where
  | io
  | syntactic
  | semantic
  | recursionLimit
deriving DecidableEq, Repr

def Fault.name : Fault → String
  | .io => "Io"
  | .syntactic => "Syntax"
  | .semantic => "Semantic"
  | .recursionLimit => "RecursionLimitExceeded"

/-- The header of an item. A length of `none` means that the item goes on until
a break. -/
inductive Header where
  | positive (n : Nat)
  | negative (n : Nat)
  | bytes (length : Option Nat)
  | text (length : Option Nat)
  | array (length : Option Nat)
  | map (length : Option Nat)
  | tag (n : Nat)
  | simple (n : Nat)
  | float
  | stop
deriving DecidableEq, Repr

namespace Header

/-- The argument of a header with low bits `minor`; `none` marks an indefinite
length. -/
def readArgument (minor : Nat) (bs : Bytes) : Except Fault (Option Nat × Bytes) :=
  let wide (width : Nat) : Except Fault (Option Nat × Bytes) :=
    match bs.split? width with
    | some (digits, rest) => .ok (some digits.toNat, rest)
    | none => .error .io
  if minor < 24 then .ok (some minor, bs)
  else if minor = 24 then wide 1
  else if minor = 25 then wide 2
  else if minor = 26 then wide 4
  else if minor = 27 then wide 8
  else if minor = 31 then .ok (none, bs)
  else .error .syntactic

def ofParts (major minor : Nat) (argument : Option Nat) : Except Fault Header :=
  let definite (f : Nat → Header) : Except Fault Header :=
    match argument with
    | some n => .ok (f n)
    | none => .error .syntactic
  match major with
  | 0 => definite .positive
  | 1 => definite .negative
  | 2 => .ok (.bytes argument)
  | 3 => .ok (.text argument)
  | 4 => .ok (.array argument)
  | 5 => .ok (.map argument)
  | 6 => definite .tag
  | _ =>
    match argument with
    | none => .ok .stop
    | some n => if minor ≤ 24 then .ok (.simple n) else .ok .float

def read : Bytes → Except Fault (Header × Bytes)
  | [] => .error .io
  | b :: bs => do
    let minor := b.toNat % 32
    let (argument, rest) ← readArgument minor bs
    let header ← ofParts (b.toNat / 32) minor argument
    return (header, rest)

theorem readArgument_length {minor : Nat} {bs rest : Bytes} {argument : Option Nat}
    (h : readArgument minor bs = .ok (argument, rest)) : rest.length ≤ bs.length := by
  unfold readArgument at h
  simp only at h
  repeat' split at h
  all_goals
    simp only [Except.ok.injEq, Prod.mk.injEq, reduceCtorEq] at h
    try obtain ⟨-, rfl⟩ := h
  all_goals
    first
    | exact Nat.le_refl _
    | have hSplit := Bytes.split?_length (by assumption)
      omega

theorem read_length {bs rest : Bytes} {header : Header} (h : read bs = .ok (header, rest)) :
    rest.length < bs.length := by
  cases bs with
  | nil => simp [read] at h
  | cons b bs =>
    simp only [read, bind, Except.bind] at h
    split at h
    · simp at h
    · next out hArgument =>
      split at h
      · simp at h
      · simp only [pure, Except.pure, Except.ok.injEq, Prod.mk.injEq] at h
        obtain ⟨-, rfl⟩ := h
        have hRest : out.2.length ≤ bs.length := readArgument_length hArgument
        simp only [List.length_cons]
        omega

/-- Whether an array or map is at its end, or goes on with one more element and
then with a number of others, or with others up to a break. -/
inductive Continuation where
  | finished (rest : Bytes)
  | element (others : Option Nat)

def continuation (left : Option Nat) (bs : Bytes) : Continuation :=
  match left with
  | some 0 => .finished bs
  | some (n + 1) => .element (some n)
  | none =>
    match read bs with
    | .ok (.stop, rest) => .finished rest
    | _ => .element none

theorem continuation_length {left : Option Nat} {bs rest : Bytes}
    (h : continuation left bs = .finished rest) : rest.length ≤ bs.length := by
  unfold continuation at h
  split at h
  · simp_all
  · simp at h
  · split at h
    · next hRead =>
      simp only [Continuation.finished.injEq] at h
      subst h
      exact Nat.le_of_lt (read_length hRead)
    · simp at h

/-- The shortest form of a major type with an argument of at most 64 bits. -/
def writeArgument (major n : Nat) : Bytes :=
  let lead (minor : Nat) : UInt8 := UInt8.ofNat (major * 32 + minor)
  if n < 24 then [lead n]
  else if n < UInt8.size then lead 24 :: Bytes.ofNat 1 n
  else if n < UInt16.size then lead 25 :: Bytes.ofNat 2 n
  else if n < UInt32.size then lead 26 :: Bytes.ofNat 4 n
  else lead 27 :: Bytes.ofNat 8 n

def argumentSize (n : Nat) : Nat :=
  if n < 24 then 1
  else if n < UInt8.size then 2
  else if n < UInt16.size then 3
  else if n < UInt32.size then 5
  else 9

theorem length_writeArgument (major n : Nat) :
    (writeArgument major n).length = argumentSize n := by
  unfold writeArgument argumentSize
  repeat' split
  all_goals simp

def writeInt (n : Int) : Bytes :=
  match n with
  | .ofNat n => writeArgument 0 n
  | .negSucc n => writeArgument 1 n

def writeBytes (length : Nat) : Bytes := writeArgument 2 length

def writeText (length : Nat) : Bytes := writeArgument 3 length

def writeMap (length : Nat) : Bytes := writeArgument 5 length

def writeNull : Bytes := [0xf6]

end Header

end CipherLink.Cbor
