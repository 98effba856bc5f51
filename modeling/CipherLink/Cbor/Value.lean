import CipherLink.Cbor.Integer

/-!
# Field values

The values that the fields of a record take, and the kinds of items from which
they are read. `Value.write` is the one form in which a value is written;
`Kind.read` accepts every form of it.
-/

namespace CipherLink.Cbor

inductive Kind where
  | integer (low high : Int)
  | octets
  | fixed (length : Nat)
  | text
deriving DecidableEq, Repr

inductive Value where
  | integer (n : Int)
  | octets (bytes : Bytes)
  | text (s : String)
  | absent
deriving DecidableEq, Repr

def Value.write : Value → Bytes
  | .integer n => Header.writeInt n
  | .octets bytes => Header.writeBytes bytes.length ++ bytes
  | .text s => Header.writeText (Bytes.ofString s).length ++ Bytes.ofString s
  | .absent => Header.writeNull

def Value.size : Value → Nat
  | .integer (.ofNat n) => Header.argumentSize n
  | .integer (.negSucc n) => Header.argumentSize n
  | .octets bytes => Header.argumentSize bytes.length + bytes.length
  | .text s => Header.argumentSize s.utf8ByteSize + s.utf8ByteSize
  | .absent => 1

def readOctetArray (left : Option Nat) (bs : Bytes) : Except Fault (Bytes × Bytes) :=
  match Header.continuation left bs with
  | .finished rest => .ok ([], rest)
  | .element others =>
    match _h : readIntegerIn 0 255 bs with
    | .error fault => .error fault
    | .ok (n, rest) =>
      match readOctetArray others rest with
      | .error fault => .error fault
      | .ok (more, rest) => .ok (UInt8.ofNat n.toNat :: more, rest)
termination_by bs.length
decreasing_by exact readIntegerIn_length _h

def readOctetString (bs : Bytes) : Except Fault (Bytes × Bytes) :=
  match readPastTags bs with
  | .error fault => .error fault
  | .ok (.bytes length, rest) => Segments.octets.read [] length rest
  | .ok (.array length, rest) => readOctetArray length rest
  | .ok _ => .error .semantic

/-- A byte string in one piece of exactly `length` bytes. A longer piece that
fits the window is read before it is refused. -/
def readFixed (length : Nat) (bs : Bytes) : Except Fault (Bytes × Bytes) :=
  match readPastTags bs with
  | .error fault => .error fault
  | .ok (.bytes (some n), rest) =>
    if windowSize < n then .error .semantic
    else
      match readOctets [] n rest with
      | .error fault => .error fault
      | .ok (content, rest) => if n = length then .ok (content, rest) else .error .semantic
  | .ok _ => .error .semantic

def readTextItem (bs : Bytes) : Except Fault (String × Bytes) :=
  match readPastTags bs with
  | .error fault => .error fault
  | .ok (.text length, rest) => Segments.text.read "" length rest
  | .ok _ => .error .semantic

def asValue {α : Type} (make : α → Value) (result : Except Fault (α × Bytes)) :
    Except Fault (Value × Bytes) :=
  match result with
  | .error fault => .error fault
  | .ok (a, rest) => .ok (make a, rest)

def Kind.read (kind : Kind) (bs : Bytes) : Except Fault (Value × Bytes) :=
  match kind with
  | .integer low high => asValue .integer (readIntegerIn low high bs)
  | .octets => asValue .octets (readOctetString bs)
  | .fixed length => asValue .octets (readFixed length bs)
  | .text => asValue .text (readTextItem bs)

def Header.isAbsent : Header → Bool
  | .simple n => n == 22 || n == 23
  | _ => false

def Kind.readOptional (kind : Kind) (bs : Bytes) : Except Fault (Value × Bytes) :=
  match Header.read bs with
  | .error fault => .error fault
  | .ok (header, rest) => if header.isAbsent then .ok (.absent, rest) else kind.read bs

theorem readOctetArray_length {left : Option Nat} {bs rest content : Bytes}
    (h : readOctetArray left bs = .ok (content, rest)) : rest.length ≤ bs.length := by
  fun_induction readOctetArray left bs generalizing content rest with
  | case1 =>
    rename_i hEnd
    simp only [Except.ok.injEq, Prod.mk.injEq] at h
    obtain ⟨-, rfl⟩ := h
    exact Header.continuation_length hEnd
  | case2 => simp at h
  | case3 => simp at h
  | case4 =>
    rename_i hRead _ _ hMore ih
    simp only [Except.ok.injEq, Prod.mk.injEq] at h
    obtain ⟨-, rfl⟩ := h
    have := readIntegerIn_length hRead
    have := ih hMore
    omega

theorem asValue_eq_ok {α : Type} {make : α → Value} {result : Except Fault (α × Bytes)}
    {value : Value} {rest : Bytes} (h : asValue make result = .ok (value, rest)) :
    ∃ a, result = .ok (a, rest) ∧ value = make a := by
  unfold asValue at h
  split at h
  · simp at h
  · simp only [Except.ok.injEq, Prod.mk.injEq] at h
    obtain ⟨rfl, rfl⟩ := h
    exact ⟨_, rfl, rfl⟩

theorem readOctetString_length {bs rest content : Bytes}
    (h : readOctetString bs = .ok (content, rest)) : rest.length < bs.length := by
  unfold readOctetString at h
  split at h
  · simp at h
  · next hHeader =>
    exact Nat.lt_of_le_of_lt (Segments.octets.read_length h) (readPastTags_length hHeader)
  · next hHeader =>
    exact Nat.lt_of_le_of_lt (readOctetArray_length h) (readPastTags_length hHeader)
  · simp at h

theorem readFixed_length {length : Nat} {bs rest content : Bytes}
    (h : readFixed length bs = .ok (content, rest)) : rest.length < bs.length := by
  unfold readFixed at h
  split at h
  · simp at h
  · next hHeader =>
    split at h
    · simp at h
    · split at h
      · simp at h
      · next hContent =>
        split at h
        · simp only [Except.ok.injEq, Prod.mk.injEq] at h
          obtain ⟨-, rfl⟩ := h
          exact Nat.lt_of_le_of_lt (readOctets_length hContent) (readPastTags_length hHeader)
        · simp at h
  · simp at h

theorem readTextItem_length {bs rest : Bytes} {content : String}
    (h : readTextItem bs = .ok (content, rest)) : rest.length < bs.length := by
  unfold readTextItem at h
  split at h
  · simp at h
  · next hHeader =>
    exact Nat.lt_of_le_of_lt (Segments.text.read_length h) (readPastTags_length hHeader)
  · simp at h

theorem Kind.read_length {kind : Kind} {bs rest : Bytes} {value : Value}
    (h : kind.read bs = .ok (value, rest)) : rest.length < bs.length := by
  cases kind <;> obtain ⟨_, h, -⟩ := asValue_eq_ok h
  · exact readIntegerIn_length h
  · exact readOctetString_length h
  · exact readFixed_length h
  · exact readTextItem_length h

theorem Kind.readOptional_length {kind : Kind} {bs rest : Bytes} {value : Value}
    (h : kind.readOptional bs = .ok (value, rest)) : rest.length < bs.length := by
  unfold readOptional at h
  split at h
  · simp at h
  · next hHeader =>
    split at h
    · simp only [Except.ok.injEq, Prod.mk.injEq] at h
      obtain ⟨-, rfl⟩ := h
      exact Header.read_length hHeader
    · exact Kind.read_length h

end CipherLink.Cbor
