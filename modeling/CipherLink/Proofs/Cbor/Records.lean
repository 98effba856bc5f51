import CipherLink.Cbor.Record
import CipherLink.Proofs.Cbor.Items
import Mathlib.Data.List.Forall2

/-!
# Records read back

A schema whose names differ reads back what it writes, field by field: behind
the entries that are read already, the slots of the fields to come are empty. The
size that is computed without writing is the length of what is written.
-/

namespace CipherLink

namespace Cbor.Schema

structure WellFormed (schema : Schema) : Prop where
  nodup : (schema.map Field.name).Nodup
  short : ∀ field ∈ schema, field.name.utf8ByteSize ≤ windowSize
  fits : schema.length < UInt64.size

def Admits (schema : Schema) (values : List Value) : Prop :=
  List.Forall₂ Field.Admits schema values

def entries (schema : Schema) (values : List Value) : Bytes :=
  (schema.zip values).flatMap fun (field, value) => (Value.text field.name).write ++ value.write

theorem write_eq (schema : Schema) (values : List Value) :
    schema.write values = Header.writeMap schema.length ++ schema.entries values := rfl

theorem findIdx?_name {before after : Schema} {field : Field}
    (h : WellFormed (before ++ field :: after)) :
    (before ++ field :: after).findIdx?
      (fun f => Bytes.ofString f.name == Bytes.ofString field.name) = some before.length := by
  have hnodup := h.nodup
  rw [List.map_append, List.map_cons, List.nodup_append] at hnodup
  obtain ⟨-, -, hdisjoint⟩ := hnodup
  rw [List.findIdx?_append, Option.or_eq_some_iff]
  refine .inr ⟨?_, by simp [List.findIdx?_cons]⟩
  rw [List.findIdx?_eq_none_iff]
  intro f hf
  rw [beq_eq_false_iff_ne]
  intro heq
  exact hdisjoint f.name (List.mem_map_of_mem hf) field.name List.mem_cons_self
    (Bytes.ofString_injective heq)

theorem readField_write {before after : Schema} {field : Field} {value : Value}
    (known unknown : Slots) (h : WellFormed (before ++ field :: after))
    (hvalue : field.Admits value) (hknown : known.length = before.length) (rest : Bytes) :
    readField (before ++ field :: after) (known ++ none :: unknown) (Bytes.ofString field.name)
      (value.write ++ rest) = .ok (known ++ some value :: unknown, rest) := by
  have hset : (known ++ none :: unknown).set before.length (some value) =
      known ++ some value :: unknown := by
    rw [← hknown, List.set_append_right _ _ (Nat.le_refl _)]
    simp
  simp only [readField, findIdx?_name h, List.getElem?_append_right (Nat.le_refl _),
    ← hknown, Nat.sub_self, List.getElem?_cons_zero]
  rw [hknown] at *
  simp [Field.read_write hvalue, hset]

theorem readEntries_step {schema : Schema} {n : Nat} {slots slots' : Slots}
    {bs name rest rest' : Bytes} (hname : readName bs = .ok (name, rest))
    (hfield : readField schema slots name rest = .ok (slots', rest')) :
    readEntries schema (some (n + 1)) slots bs = readEntries schema (some n) slots' rest' := by
  rw [readEntries]
  simp only [Header.continuation]
  split
  · next hread => simp [hname] at hread
  · next hread =>
    rw [hname, Except.ok.injEq, Prod.mk.injEq] at hread
    obtain ⟨rfl, rfl⟩ := hread
    split
    · next hread => simp [hfield] at hread
    · next hread =>
      rw [hfield, Except.ok.injEq, Prod.mk.injEq] at hread
      obtain ⟨rfl, rfl⟩ := hread
      rfl

theorem readEntries_entries {after : Schema} {values : List Value}
    (hvalues : List.Forall₂ Field.Admits after values) (before : Schema) (known : List Value)
    (h : WellFormed (before ++ after)) (hknown : known.length = before.length) (rest : Bytes) :
    readEntries (before ++ after) (some after.length)
      (known.map some ++ after.map fun _ => none) (entries after values ++ rest) =
        .ok ((known ++ values).map some, rest) := by
  induction hvalues generalizing before known with
  | nil =>
    rw [readEntries]
    simp [Header.continuation, entries]
  | @cons field value after values hvalue hvalues ih =>
    have hshort := h.short field (by simp)
    have hname := readName_write hshort (value.write ++ (entries after values ++ rest))
    have hfield := readField_write (known.map some) (after.map fun _ => none) h hvalue
      (by simpa using hknown) (entries after values ++ rest)
    have hnext := ih (before ++ [field]) (known ++ [value]) (by simpa using h)
      (by simpa using hknown)
    have hentries : entries (field :: after) (value :: values) ++ rest =
        (Value.text field.name).write ++ (value.write ++ (entries after values ++ rest)) := by
      simp [entries]
    rw [hentries, List.length_cons, List.map_cons, readEntries_step hname hfield]
    simpa using hnext

theorem fill_map_some {schema : Schema} {values : List Value}
    (h : schema.length = values.length) : fill schema (values.map some) = .ok values := by
  induction schema generalizing values with
  | nil => simp [List.eq_nil_of_length_eq_zero h.symm, fill]
  | cons field schema ih =>
    obtain _ | ⟨value, values⟩ := values
    · simp at h
    · simp [fill, ih (by simpa using h)]

theorem read_write {schema : Schema} {values : List Value} (h : schema.WellFormed)
    (hvalues : schema.Admits values) (rest : Bytes) :
    schema.read (schema.write values ++ rest) = .ok (values, rest) := by
  have hpast := readPastTags_of_read
    (Header.read_writeMap h.fits (schema.entries values ++ rest)) (by simp)
  have hentries := readEntries_entries hvalues [] [] h rfl rest
  simp only [List.nil_append, List.map_nil] at hentries
  simp only [read, write_eq, List.append_assoc, hpast, hentries,
    fill_map_some (List.Forall₂.length_eq hvalues)]

theorem writeTo_eq (schema : Schema) (sink : Bytes) (values : List Value) :
    schema.writeTo sink values = sink ++ schema.write values := by
  have hfold (pairs : List (Field × Value)) (front : Bytes) :
      pairs.foldl (fun sink (field, value) => sink ++ (Value.text field.name).write ++ value.write)
        front = front ++ pairs.flatMap fun (field, value) =>
          (Value.text field.name).write ++ value.write := by
    induction pairs generalizing front with
    | nil => simp
    | cons pair pairs ih =>
      rw [List.foldl_cons, ih, List.flatMap_cons]
      simp only [List.append_assoc]
  rw [writeTo, hfold, write_eq, entries, List.append_assoc]

theorem length_entries (schema : Schema) (values : List Value) :
    (schema.entries values).length = (schema.zip values).foldr
      (fun (field, value) rest => (Value.text field.name).size + value.size + rest) 0 := by
  rw [entries]
  induction schema.zip values with
  | nil => rfl
  | cons pair pairs ih =>
    simp only [List.flatMap_cons, List.length_append, List.foldr_cons, Value.length_write, ih]

theorem length_write (schema : Schema) (values : List Value) :
    (schema.write values).length = schema.size values := by
  rw [write_eq, List.length_append, length_entries, size, Header.writeMap,
    Header.length_writeArgument]

end Cbor.Schema

/-- A type of records whose schema can be read and whose values come back from
their fields. -/
class LawfulRecorded (α : Type) [Recorded α] : Prop where
  wellFormed : (Recorded.schema α).WellFormed
  ofValues?_values : ∀ a : α, Recorded.ofValues? (Recorded.values a) = some a

namespace Recorded

variable {α : Type} [Recorded α]

/-- Whether every field of a value fits its place in the record. -/
def Writable (a : α) : Prop :=
  (schema α).Admits (values a)

theorem decode_encode [LawfulRecorded α] {a : α} (h : Writable a) (rest : Bytes) :
    decode (encode a ++ rest) = .ok a := by
  simp only [decode, encode, Cbor.Schema.read_write LawfulRecorded.wellFormed h,
    LawfulRecorded.ofValues?_values]

theorem appendTo_eq (sink : Bytes) (a : α) : appendTo sink a = sink ++ encode a :=
  Cbor.Schema.writeTo_eq _ _ _

theorem length_encode (a : α) : (encode a).length = encodedSize a :=
  Cbor.Schema.length_write _ _

theorem encode_ne_nil (a : α) : encode a ≠ [] := by
  intro h
  have hlength := congrArg List.length h
  rw [encode, Cbor.Schema.write_eq, List.length_append, Cbor.Header.writeMap,
    Cbor.Header.length_writeArgument, Cbor.Header.argumentSize, List.length_nil] at hlength
  split_ifs at hlength <;> omega

end Recorded

end CipherLink
