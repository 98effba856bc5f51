import CipherLink.Cbor.Integer

/-!
# Passing over an item

`skip` passes over one well-formed item of any kind. The arrays, maps and tags
that are open around the next item are kept on a stack, whose height is the
depth of nesting and is bounded by `nestingLimit`.
-/

namespace CipherLink.Cbor

def nestingLimit : Nat := 256

/-- What is still to come in an open array, map or tag: a number of items, or
items up to a break, or pairs of items up to a break in front of a pair. -/
inductive Open where
  | items (left : Nat)
  | endless
  | pairs (inPair : Bool)
deriving DecidableEq, Repr

namespace Open

def next : Open → Open
  | .items left => .items (left - 1)
  | .endless => .endless
  | .pairs inPair => .pairs (!inPair)

def mayStop : Open → Bool
  | .items _ => false
  | .endless => true
  | .pairs inPair => !inPair

end Open

def nest (inner : Open) (stack : List Open) : Except Fault (List Open) :=
  if stack.length < nestingLimit then .ok (inner :: stack) else .error .recursionLimit

/-- Whether a tag and the header behind it are those of a big number that is read
as one. A longer one counts as any other tagged item. -/
def isBignum (t : Nat) (content : Header) : Bool :=
  match content with
  | .bytes (some length) =>
    (t == positiveBignumTag || t == negativeBignumTag) && length ≤ bignumDigits
  | _ => false

def skipHeader (stack : List Open) (header : Header) (bs : Bytes) :
    Except Fault (List Open × Bytes) :=
  let opened (inner : Open) : Except Fault (List Open × Bytes) :=
    match nest inner stack with
    | .error fault => .error fault
    | .ok stack => .ok (stack, bs)
  match header with
  | .positive _ | .negative _ | .float => .ok (stack, bs)
  | .bytes length =>
    match Segments.octets.read [] length bs with
    | .error fault => .error fault
    | .ok (_, rest) => .ok (stack, rest)
  | .text length =>
    match Segments.text.read "" length bs with
    | .error fault => .error fault
    | .ok (_, rest) => .ok (stack, rest)
  | .array (some n) => opened (.items n)
  | .array none => opened .endless
  | .map (some n) => opened (.items (2 * n))
  | .map none => opened (.pairs false)
  | .tag t =>
    match Header.read bs with
    | .error fault => .error fault
    | .ok (content, _) =>
      if isBignum t content then
        match readBignum bs with
        | .error fault => .error fault
        | .ok (n, rest) =>
          if t = negativeBignumTag ∧ 1 <<< 127 ≤ n then .error .semantic else .ok (stack, rest)
      else opened (.items 1)
  | .simple n => if 20 ≤ n ∧ n ≤ 23 then .ok (stack, bs) else .error .semantic
  | .stop => .error .semantic

theorem skipHeader_length {stack stack' : List Open} {header : Header} {bs rest : Bytes}
    (h : skipHeader stack header bs = .ok (stack', rest)) : rest.length ≤ bs.length := by
  unfold skipHeader at h
  simp only at h
  repeat' split at h
  all_goals
    simp only [Except.ok.injEq, Prod.mk.injEq, reduceCtorEq] at h
    try obtain ⟨-, rfl⟩ := h
  all_goals
    first
    | exact Nat.le_refl _
    | exact Segments.octets.read_length (by assumption)
    | exact Segments.text.read_length (by assumption)
    | exact Nat.le_of_lt (readBignum_length (by assumption))

def skipOpen (stack : List Open) (bs : Bytes) : Except Fault Bytes :=
  match stack with
  | [] => .ok bs
  | .items 0 :: stack => skipOpen stack bs
  | top :: stack =>
    match _h : Header.read bs with
    | .error fault => .error fault
    | .ok (header, rest) =>
      if header = .stop ∧ top.mayStop then skipOpen stack rest
      else
        match _h' : skipHeader (top.next :: stack) header rest with
        | .error fault => .error fault
        | .ok (stack, rest) => skipOpen stack rest
termination_by (bs.length, stack.length)
decreasing_by
  · exact Prod.Lex.right _ (Nat.lt_succ_self _)
  · exact Prod.Lex.left _ _ (Header.read_length _h)
  · exact Prod.Lex.left _ _ (Nat.lt_of_le_of_lt (skipHeader_length _h') (Header.read_length _h))

def skip (bs : Bytes) : Except Fault Bytes :=
  skipOpen [.items 1] bs

theorem skipOpen_length {stack : List Open} {bs rest : Bytes}
    (h : skipOpen stack bs = .ok rest) : rest.length ≤ bs.length := by
  fun_induction skipOpen stack bs with
  | case1 => simp_all
  | case2 _ _ ih => exact ih h
  | case3 => simp at h
  | case4 =>
    rename_i hRead _ ih
    exact Nat.le_trans (ih h) (Nat.le_of_lt (Header.read_length hRead))
  | case5 => simp at h
  | case6 =>
    rename_i hRead _ _ _ hHeader ih
    have := Header.read_length hRead
    have := skipHeader_length hHeader
    have := ih h
    omega

theorem skip_length {bs rest : Bytes} (h : skip bs = .ok rest) : rest.length ≤ bs.length :=
  skipOpen_length h

end CipherLink.Cbor
