import CipherLink.Cbor.Skip
import CipherLink.Cbor.Value

/-!
# Records

A record is a map from field names to values. A `Schema` lists the fields in the
order in which they are written. A record is read from the front of the bytes:
its fields may come in any order, fields that the schema does not list are passed
over, and an optional field may be missing.

The values of a recorded type are exchanged as records. A value is written in one form,
whose size is known without writing it, and is read from the front of any bytes
that hold its record.
-/

namespace CipherLink.Cbor

structure Field where
  name : String
  kind : Kind
  optional : Bool
deriving DecidableEq, Repr

abbrev Schema := List Field

abbrev Slots := List (Option Value)

def Field.read (field : Field) (bs : Bytes) : Except Fault (Value × Bytes) :=
  if field.optional then field.kind.readOptional bs else field.kind.read bs

theorem Field.read_length {field : Field} {bs rest : Bytes} {value : Value}
    (h : field.read bs = .ok (value, rest)) : rest.length < bs.length := by
  unfold read at h
  split at h
  · exact Kind.readOptional_length h
  · exact Kind.read_length h

/-- A field name: a text or a byte string in one piece that fits the window. -/
def readName (bs : Bytes) : Except Fault (Bytes × Bytes) :=
  match readPastTags bs with
  | .error fault => .error fault
  | .ok (.text (some n), rest) =>
    if windowSize < n then .error .semantic
    else
      match readOctets [] n rest with
      | .error fault => .error fault
      | .ok (name, rest) => if name.utf8?.isSome then .ok (name, rest) else .error .syntactic
  | .ok (.bytes (some n), rest) => if windowSize < n then .error .semantic else readOctets [] n rest
  | .ok _ => .error .semantic

theorem readName_length {bs rest name : Bytes} (h : readName bs = .ok (name, rest)) :
    rest.length < bs.length := by
  unfold readName at h
  split at h
  · simp at h
  · next hHeader =>
    split at h
    · simp at h
    · split at h
      · simp at h
      · next hContent =>
        split at h
        · simp only [Except.ok.injEq, Prod.mk.injEq] at h
          obtain ⟨-, rfl⟩ := h
          exact Nat.lt_of_le_of_lt (readOctets_length hContent) (readPastTags_length hHeader)
        · simp at h
  · next hHeader =>
    split at h
    · simp at h
    · exact Nat.lt_of_le_of_lt (readOctets_length h) (readPastTags_length hHeader)
  · simp at h

namespace Schema

variable (schema : Schema)

def readField (slots : Slots) (name bs : Bytes) : Except Fault (Slots × Bytes) :=
  match schema.findIdx? fun field => Bytes.ofString field.name == name with
  | none =>
    match skip bs with
    | .error fault => .error fault
    | .ok rest => .ok (slots, rest)
  | some i =>
    match schema[i]?, slots[i]? with
    | some field, some none =>
      match field.read bs with
      | .error fault => .error fault
      | .ok (value, rest) => .ok (slots.set i (some value), rest)
    | _, _ => .error .semantic

theorem readField_length {slots slots' : Slots} {name bs rest : Bytes}
    (h : readField schema slots name bs = .ok (slots', rest)) : rest.length ≤ bs.length := by
  unfold readField at h
  repeat' split at h
  all_goals
    simp only [Except.ok.injEq, Prod.mk.injEq, reduceCtorEq] at h
    try obtain ⟨-, rfl⟩ := h
  · exact skip_length (by assumption)
  · exact Nat.le_of_lt (Field.read_length (by assumption))

def readEntries (left : Option Nat) (slots : Slots) (bs : Bytes) :
    Except Fault (Slots × Bytes) :=
  match Header.continuation left bs with
  | .finished rest => .ok (slots, rest)
  | .element others =>
    match _h : readName bs with
    | .error fault => .error fault
    | .ok (name, rest) =>
      match _h' : readField schema slots name rest with
      | .error fault => .error fault
      | .ok (slots, rest) => readEntries others slots rest
termination_by bs.length
decreasing_by exact Nat.lt_of_le_of_lt (readField_length _ _h') (readName_length _h)

def fill : Schema → Slots → Except Fault (List Value)
  | [], _ => .ok []
  | field :: fields, slots =>
    match slots.headD none, fill fields slots.tail with
    | some value, .ok values => .ok (value :: values)
    | none, .ok values => if field.optional then .ok (.absent :: values) else .error .semantic
    | _, .error fault => .error fault

def read (bs : Bytes) : Except Fault (List Value × Bytes) :=
  match readPastTags bs with
  | .error fault => .error fault
  | .ok (.map length, rest) =>
    match readEntries schema length (schema.map fun _ => none) rest with
    | .error fault => .error fault
    | .ok (slots, rest) =>
      match fill schema slots with
      | .error fault => .error fault
      | .ok values => .ok (values, rest)
  | .ok _ => .error .semantic

def write (values : List Value) : Bytes :=
  Header.writeMap schema.length ++
    (schema.zip values).flatMap fun (field, value) =>
      (Value.text field.name).write ++ value.write

/-- A sink with that form behind what it holds, written entry by entry. -/
def writeTo (sink : Bytes) (values : List Value) : Bytes :=
  (schema.zip values).foldl
    (fun sink (field, value) => sink ++ (Value.text field.name).write ++ value.write)
    (sink ++ Header.writeMap schema.length)

/-- The number of bytes of that form, without writing it. -/
def size (values : List Value) : Nat :=
  Header.argumentSize schema.length +
    (schema.zip values).foldr
      (fun (field, value) rest => (Value.text field.name).size + value.size + rest) 0

end Schema

end CipherLink.Cbor

namespace CipherLink

open Cbor (Schema Value Fault)

class Recorded (α : Type) where
  schema : Schema
  values : α → List Value
  ofValues? : List Value → Option α

namespace Recorded

variable {α : Type} [Recorded α]

def encode (a : α) : Bytes :=
  (schema α).write (values a)

def appendTo (sink : Bytes) (a : α) : Bytes :=
  (schema α).writeTo sink (values a)

def encodedSize (a : α) : Nat :=
  (schema α).size (values a)

/-- The value whose record stands at the front of the bytes; what follows it is
ignored. -/
def decode (bs : Bytes) : Except Fault α :=
  match (schema α).read bs with
  | .error fault => .error fault
  | .ok (values, _) =>
    match ofValues? values with
    | some a => .ok a
    | none => .error .semantic

end Recorded

end CipherLink
