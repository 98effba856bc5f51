import CipherLink.Cbor.Header

/-!
# Strings in segments

The content of a byte string or text follows its header in one piece, or, when
no length is announced, in segments up to a break; such strings may nest. A
`Segments` says how the segments of one kind of string are recognised and what
is gathered from them. Tags in front of an item are passed over by
`readPastTags`.
-/

namespace CipherLink.Cbor

def readPastTags (bs : Bytes) : Except Fault (Header × Bytes) :=
  match _h : Header.read bs with
  | .error fault => .error fault
  | .ok (.tag _, rest) => readPastTags rest
  | .ok (header, rest) => .ok (header, rest)
termination_by bs.length
decreasing_by exact Header.read_length _h

theorem readPastTags_length {bs rest : Bytes} {header : Header}
    (h : readPastTags bs = .ok (header, rest)) : rest.length < bs.length := by
  fun_induction readPastTags bs with
  | case1 => simp at h
  | case2 bs n next hRead ih => exact Nat.lt_trans (ih h) (Header.read_length hRead)
  | case3 bs hd next _ hRead =>
    simp only [Except.ok.injEq, Prod.mk.injEq] at h
    obtain ⟨-, rfl⟩ := h
    exact Header.read_length hRead

/-- The number of bytes that a string reader holds at once. -/
def windowSize : Nat := 4096

def readOctets (gathered : Bytes) (left : Nat) (bs : Bytes) : Except Fault (Bytes × Bytes) :=
  match bs.split? left with
  | some (content, rest) => .ok (gathered ++ content, rest)
  | none => .error .io

theorem readOctets_length {left : Nat} {gathered bs rest content : Bytes}
    (h : readOctets gathered left bs = .ok (content, rest)) : rest.length ≤ bs.length := by
  unfold readOctets at h
  split at h
  · next hSplit =>
    simp only [Except.ok.injEq, Prod.mk.injEq] at h
    obtain ⟨-, rfl⟩ := h
    have := Bytes.split?_length hSplit
    omega
  · simp at h

/-- The longest well-formed front of a window, and what is left when that is at
most the three bytes of an unfinished character. -/
def splitUtf8? (window : Bytes) : Option (String × Bytes) :=
  [0, 1, 2, 3].findSome? fun held =>
    let cut := window.length - held
    (Bytes.utf8? (window.take cut)).map fun text => (text, window.drop cut)

/-- The text of a segment of which `left` bytes are unread and `held` bytes wait
for the rest of their character. A window is read whole before it is decoded, so
a segment that is cut short is told from one that is not well formed by what
comes first. -/
def readText (gathered : String) (left : Nat) (held : Bytes) (bs : Bytes) :
    Except Fault (String × Bytes) :=
  if left = 0 then
    if held.isEmpty then .ok (gathered, bs) else .error .syntactic
  else
    match bs.split? (max 1 (min left (windowSize - held.length))) with
    | none => .error .io
    | some (content, rest) =>
      match splitUtf8? (held ++ content) with
      | none => .error .syntactic
      | some (text, unfinished) =>
        readText (gathered ++ text) (left - max 1 content.length) unfinished rest
termination_by left
decreasing_by omega

theorem readText_length {gathered : String} {left : Nat} {held bs rest : Bytes} {text : String}
    (h : readText gathered left held bs = .ok (text, rest)) : rest.length ≤ bs.length := by
  fun_induction readText gathered left held bs with
  | case1 => simp_all
  | case2 => simp at h
  | case3 => simp at h
  | case4 => simp at h
  | case5 =>
    rename_i hSplit _ _ _ ih
    have := Bytes.split?_length hSplit
    have := ih h
    omega

/-- How the segments of one kind of string are recognised, and what reading one
of `length` bytes adds to what was gathered. -/
structure Segments (α : Type) where
  lengthOf : Header → Option (Option Nat)
  content : α → Nat → Bytes → Except Fault (α × Bytes)
  content_length : ∀ {gathered length bs a rest},
    content gathered length bs = .ok (a, rest) → rest.length ≤ bs.length

def Header.octetLength? : Header → Option (Option Nat)
  | .bytes length => some length
  | _ => none

def Header.textLength? : Header → Option (Option Nat)
  | .text length => some length
  | _ => none

namespace Segments

def octets : Segments Bytes where
  lengthOf := Header.octetLength?
  content := readOctets
  content_length h := readOctets_length h

def text : Segments String where
  lengthOf := Header.textLength?
  content gathered length := readText gathered length []
  content_length h := readText_length h

variable {α : Type} (kind : Segments α)

/-- The rest of a string of indefinite length. Such strings may hold others of
their kind, and `depth` of them are open inside the outermost. -/
def readRest (depth : Nat) (gathered : α) (bs : Bytes) : Except Fault (α × Bytes) :=
  match _h : Header.read bs with
  | .error fault => .error fault
  | .ok (.stop, rest) =>
    match depth with
    | 0 => .ok (gathered, rest)
    | outer + 1 => readRest outer gathered rest
  | .ok (header, rest) =>
    match kind.lengthOf header with
    | none => .error .syntactic
    | some none => readRest (depth + 1) gathered rest
    | some (some length) =>
      match _h' : kind.content gathered length rest with
      | .error fault => .error fault
      | .ok (more, rest) => readRest depth more rest
termination_by bs.length
decreasing_by
  · exact Header.read_length _h
  · exact Header.read_length _h
  · exact Nat.lt_of_le_of_lt (kind.content_length _h') (Header.read_length _h)

theorem readRest_length {depth : Nat} {gathered a : α} {bs rest : Bytes}
    (h : kind.readRest depth gathered bs = .ok (a, rest)) : rest.length ≤ bs.length := by
  fun_induction readRest kind depth gathered bs with
  | case1 => simp at h
  | case2 =>
    rename_i hRead
    simp only [Except.ok.injEq, Prod.mk.injEq] at h
    obtain ⟨-, rfl⟩ := h
    exact Nat.le_of_lt (Header.read_length hRead)
  | case3 =>
    rename_i hRead _ ih
    exact Nat.le_trans (ih h) (Nat.le_of_lt (Header.read_length hRead))
  | case4 => simp at h
  | case5 =>
    rename_i hRead _ ih
    exact Nat.le_trans (ih h) (Nat.le_of_lt (Header.read_length hRead))
  | case6 => simp at h
  | case7 =>
    rename_i hRead _ _ _ _ hContent ih
    have := kind.content_length hContent
    have := Header.read_length hRead
    have := ih h
    omega

def read (empty : α) (length : Option Nat) (bs : Bytes) : Except Fault (α × Bytes) :=
  match length with
  | some length => kind.content empty length bs
  | none => kind.readRest 0 empty bs

theorem read_length {empty a : α} {length : Option Nat} {bs rest : Bytes}
    (h : kind.read empty length bs = .ok (a, rest)) : rest.length ≤ bs.length := by
  unfold read at h
  split at h
  · exact kind.content_length h
  · exact kind.readRest_length h

end Segments

end CipherLink.Cbor
