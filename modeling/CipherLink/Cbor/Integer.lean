import CipherLink.Cbor.Segments

/-!
# Integers

An integer is written in its header, or as a big number: a tag 2 or 3 over a
byte string of its digits. A big number may have leading zeros, and at most
sixteen digits behind them.
-/

namespace CipherLink.Cbor

def bignumDigits : Nat := 16

/-- The digits of one segment of a big number, behind the significant ones
gathered before. They are read sixteen at a time, and too many are refused as
soon as they have been read. -/
def readDigits (gathered : Bytes) (left : Nat) (bs : Bytes) : Except Fault (Bytes × Bytes) :=
  if left = 0 then .ok (gathered, bs)
  else
    match bs.split? (min left bignumDigits) with
    | none => .error .io
    | some (content, rest) =>
      let digits := (gathered ++ content).dropWhile (· == 0)
      if digits.length ≤ bignumDigits then readDigits digits (left - min left bignumDigits) rest
      else .error .semantic
termination_by left
decreasing_by simp only [bignumDigits]; omega

theorem readDigits_length {gathered bs rest digits : Bytes} {left : Nat}
    (h : readDigits gathered left bs = .ok (digits, rest)) : rest.length ≤ bs.length := by
  fun_induction readDigits gathered left bs with
  | case1 => simp_all
  | case2 => simp at h
  | case3 =>
    rename_i hSplit _ _ ih
    have := Bytes.split?_length hSplit
    have := ih h
    omega
  | case4 => simp at h

def Segments.digits : Segments Bytes where
  lengthOf := Header.octetLength?
  content := readDigits
  content_length h := readDigits_length h

def readBignum (bs : Bytes) : Except Fault (Nat × Bytes) :=
  match Header.read bs with
  | .error fault => .error fault
  | .ok (.bytes length, rest) =>
    match Segments.digits.read [] length rest with
    | .error fault => .error fault
    | .ok (digits, rest) => .ok (digits.toNat, rest)
  | .ok _ => .error .semantic

theorem readBignum_length {bs rest : Bytes} {n : Nat} (h : readBignum bs = .ok (n, rest)) :
    rest.length < bs.length := by
  unfold readBignum at h
  split at h
  · simp at h
  · next hRead =>
    split at h
    · simp at h
    · next hDigits =>
      simp only [Except.ok.injEq, Prod.mk.injEq] at h
      obtain ⟨-, rfl⟩ := h
      exact Nat.lt_of_le_of_lt (Segments.digits.read_length hDigits) (Header.read_length hRead)
  · simp at h

def positiveBignumTag : Nat := 2

def negativeBignumTag : Nat := 3

/-- The integer whose distance from 0, or from -1 below that, is `n`. -/
def signed (negative : Bool) (n : Nat) : Int :=
  if negative then Int.negSucc n else Int.ofNat n

def readInteger (bs : Bytes) : Except Fault (Int × Bytes) :=
  match _h : Header.read bs with
  | .error fault => .error fault
  | .ok (.positive n, rest) => .ok (signed false n, rest)
  | .ok (.negative n, rest) => .ok (signed true n, rest)
  | .ok (.tag t, rest) =>
    if t = positiveBignumTag ∨ t = negativeBignumTag then
      match readBignum rest with
      | .error fault => .error fault
      | .ok (n, rest) => .ok (signed (t = negativeBignumTag) n, rest)
    else readInteger rest
  | .ok _ => .error .semantic
termination_by bs.length
decreasing_by exact Header.read_length _h

theorem readInteger_length {bs rest : Bytes} {n : Int} (h : readInteger bs = .ok (n, rest)) :
    rest.length < bs.length := by
  fun_induction readInteger bs with
  | case1 => simp at h
  | case2 _ _ _ hRead | case3 _ _ _ hRead =>
    simp only [Except.ok.injEq, Prod.mk.injEq] at h
    obtain ⟨-, rfl⟩ := h
    exact Header.read_length hRead
  | case4 => simp at h
  | case5 =>
    rename_i hRead _ _ _ hBignum
    simp only [Except.ok.injEq, Prod.mk.injEq] at h
    obtain ⟨-, rfl⟩ := h
    exact Nat.lt_trans (readBignum_length hBignum) (Header.read_length hRead)
  | case6 =>
    rename_i hRead _ ih
    exact Nat.lt_trans (ih h) (Header.read_length hRead)
  | case7 => simp at h

def readIntegerIn (low high : Int) (bs : Bytes) : Except Fault (Int × Bytes) :=
  match readInteger bs with
  | .error fault => .error fault
  | .ok (n, rest) => if low ≤ n ∧ n ≤ high then .ok (n, rest) else .error .semantic

theorem readIntegerIn_length {low high n : Int} {bs rest : Bytes}
    (h : readIntegerIn low high bs = .ok (n, rest)) : rest.length < bs.length := by
  unfold readIntegerIn at h
  split at h
  · simp at h
  · next hRead =>
    split at h
    · simp only [Except.ok.injEq, Prod.mk.injEq] at h
      obtain ⟨-, rfl⟩ := h
      exact readInteger_length hRead
    · simp at h

end CipherLink.Cbor
