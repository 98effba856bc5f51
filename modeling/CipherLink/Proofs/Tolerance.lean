import CipherLink.Message
import CipherLink.Proofs.Cbor.Entries
import CipherLink.Proofs.WireRecords
import Mathlib.Data.List.Nodup

/-!
# Messages among other entries

A message is decoded from any map that has its fields, in any order and among any other
entries, as a newer peer may send it. A map that names a field twice, or has no key or no
payload, is no message.
-/

namespace CipherLink

open Cbor

namespace Message

def fieldNames : List String := ["key", "client_id", "payload"]

/-- The entries for the client id of a message: where there is none it is left out or null. -/
inductive IdEntries : Option ClientId → List Entry → Prop where
  | leftOut : IdEntries none []
  | null {e : Entry} (hname : e.name = "client_id") (hvalue : e.value = Header.writeNull) :
      IdEntries none [e]
  | present {e : Entry} {head : Bytes} {id : ClientId} (hname : e.name = "client_id")
      (h : HeaderForm 2 16 head) (hvalue : e.value = head ++ id.toBytes) : IdEntries (some id) [e]

/-- The entries for the fields of a message, with the key in any width and the payload in one
piece or in several. -/
structure FieldEntries (message : Message) (key payload : Entry) (ids : List Entry) : Prop where
  key_name : key.name = "key"
  key_value : IntegerForm message.key.toInt key.value
  payload_name : payload.name = "payload"
  payload_value : ∃ contents, StringForm 2 contents payload.value ∧
    contents.flatten = message.payload
  id_entries : IdEntries message.clientId ids

def fieldValue (message : Message) (name : String) : Value :=
  if name = "key" then .integer message.key.toInt
  else if name = "payload" then .octets message.payload
  else message.clientId.elim .absent fun id => .octets id.toBytes

theorem values_eq (message : Message) : Recorded.values message =
    (Recorded.schema Message).map fun field => message.fieldValue field.name := by
  obtain ⟨key, _ | id, payload⟩ := message <;> rfl

theorem forall_field {p : Field → Prop} (hkey : p ⟨"key", .integer (-0x80000000) 0x7fffffff, false⟩)
    (hid : p ⟨"client_id", .fixed 16, true⟩) (hpayload : p ⟨"payload", .octets, false⟩) :
    ∀ field ∈ Recorded.schema Message, p field := by
  intro field hfield
  simp only [Recorded.schema, List.mem_cons, List.not_mem_nil, or_false] at hfield
  rcases hfield with rfl | rfl | rfl
  · exact hkey
  · exact hid
  · exact hpayload

theorem forall_required {p : String → Prop} :
    (∀ field ∈ Recorded.schema Message, field.optional = false → p field.name) ↔
      p "key" ∧ p "payload" := by
  simp [Recorded.schema]

theorem IdEntries.read {id : Option ClientId} {ids : List Entry} (h : IdEntries id ids) {e : Entry}
    (he : e ∈ ids) : e.name = "client_id" ∧ ∀ rest,
      (⟨"client_id", .fixed 16, true⟩ : Field).read (e.value ++ rest) =
        .ok (id.elim .absent fun id => .octets id.toBytes, rest) := by
  cases h with
  | leftOut => simp at he
  | null hname hvalue =>
    rw [List.mem_singleton.mp he, hvalue]
    exact ⟨hname, fun rest => rfl⟩
  | @present _ head id hname h hvalue =>
    rw [List.mem_singleton.mp he, hvalue]
    have hlength : id.toBytes.length = 16 := Bytes.length_ofNat _ _
    have hhead : HeaderForm 2 id.toBytes.length head := by rwa [hlength]
    have hread := hhead.read_fixed (by rw [hlength]; decide) "client_id"
    rw [hlength] at hread
    exact ⟨hname, hread⟩

theorem FieldEntries.read {message : Message} {key payload : Entry} {ids : List Entry}
    (h : message.FieldEntries key payload ids) {e : Entry} (he : e ∈ key :: payload :: ids) :
    e.name ∈ fieldNames ∧ ∀ field ∈ Recorded.schema Message, field.name = e.name →
      ∀ rest, field.read (e.value ++ rest) = .ok (message.fieldValue e.name, rest) := by
  rcases List.mem_cons.mp he with rfl | he
  · rw [h.key_name]
    have hlow := message.key.le_toInt
    have hhigh := message.key.toInt_lt
    refine ⟨by decide, forall_field (fun _ rest => ?_) (by simp) (by simp)⟩
    exact h.key_value.read (by omega) (by omega) rest
  rcases List.mem_cons.mp he with rfl | he
  · rw [h.payload_name]
    obtain ⟨contents, hform, hcontents⟩ := h.payload_value
    refine ⟨by decide, forall_field (by simp) (by simp) fun _ rest => ?_⟩
    have hread := hform.read rest
    rwa [hcontents] at hread
  · obtain ⟨hname, hread⟩ := h.id_entries.read he
    rw [hname]
    exact ⟨by decide, forall_field (by simp) (fun _ rest => hread rest) (by simp)⟩

theorem mem_fieldNames {name : String} :
    name ∈ fieldNames ↔ ∃ field ∈ Recorded.schema Message, field.name = name := by
  have hnames : fieldNames = (Recorded.schema Message).map Field.name := rfl
  rw [hnames, List.mem_map]

theorem IdEntries.names_eq {id : Option ClientId} {ids : List Entry} (h : IdEntries id ids) :
    names ids = ["client_id"] ∨ names ids = [] ∧ id = none := by
  cases h with
  | leftOut => exact .inr ⟨rfl, rfl⟩
  | null hname _ => exact .inl (congrArg (fun name => [name]) hname)
  | present hname _ _ => exact .inl (congrArg (fun name => [name]) hname)

section

variable {message : Message} {key payload : Entry} {ids others : List Entry}
variable (h : message.FieldEntries key payload ids)
include h

theorem FieldEntries.names_eq : names (key :: payload :: ids) = "key" :: "payload" :: names ids := by
  rw [names_cons, names_cons, h.key_name, h.payload_name]

theorem FieldEntries.count_le (hothers : ∀ e ∈ others, e.name ∉ fieldNames) {name : String}
    (hname : name ∈ fieldNames) : (names (key :: payload :: ids ++ others)).count name ≤ 1 := by
  have hnone : (names others).count name = 0 := by
    rw [List.count_eq_zero, names, List.mem_map]
    rintro ⟨e, he, rfl⟩
    exact hothers e he hname
  have hfields : (names (key :: payload :: ids)).Nodup := by
    rw [h.names_eq]
    rcases h.id_entries.names_eq with hids | ⟨hids, -⟩ <;> rw [hids] <;> decide
  rw [names, List.map_append, List.count_append, ← names, ← names, hnone]
  exact List.nodup_iff_count_le_one.mp hfields name

theorem FieldEntries.mem_names {name : String} :
    name ∈ names (key :: payload :: ids ++ others) ↔
      name ∈ "key" :: "payload" :: names ids ∨ name ∈ names others := by
  rw [names, List.map_append, List.mem_append, ← names, ← names, h.names_eq]

theorem FieldEntries.values_eq :
    ((Recorded.schema Message).map fun field =>
      if field.name ∈ names (key :: payload :: ids ++ others) then message.fieldValue field.name
      else .absent) = Recorded.values message := by
  rw [Message.values_eq]
  refine List.map_congr_left (forall_field ?_ ?_ ?_)
  · exact if_pos (h.mem_names.mpr (.inl (by simp)))
  · rcases h.id_entries.names_eq with hids | ⟨-, hnone⟩
    · exact if_pos (h.mem_names.mpr (.inl (by simp [hids])))
    · have habsent : message.fieldValue "client_id" = .absent := by
        simp [fieldValue, hnone]
      rw [habsent, ite_self]
  · exact if_pos (h.mem_names.mpr (.inl (by simp)))

theorem FieldEntries.decode {entries : List Entry} {bs : Bytes} (hform : MapForm entries bs)
    (hothers : ∀ e ∈ others, e.name ∉ fieldNames ∧ Items (nestingLimit - 1) 1 e.value)
    (hlabels : ∀ e ∈ entries, e.LabelledAtOnce)
    (horder : entries.Perm (key :: payload :: ids ++ others)) (trailing : Bytes) :
    Codec.records.decode (bs ++ trailing) = .ok message := by
  have hmem (e : Entry) : e ∈ entries ↔ e ∈ key :: payload :: ids ∨ e ∈ others := by
    rw [horder.mem_iff, List.mem_append]
  have hnames : (names entries).Perm (names (key :: payload :: ids ++ others)) :=
    horder.map Entry.name
  have hforeign (e : Entry) (he : e ∈ others) : e.name ∉ fieldNames := (hothers e he).1
  have hknown : ∀ e ∈ entries, ∀ field ∈ Recorded.schema Message, field.name = e.name →
      ∀ rest, field.read (e.value ++ rest) = .ok (message.fieldValue e.name, rest) := by
    intro e he field hfield heq
    rcases (hmem e).mp he with hown | hother
    · exact (h.read hown).2 field hfield heq
    · exact absurd (mem_fieldNames.mpr ⟨field, hfield, heq⟩) (hforeign e hother)
  have hskipped : ∀ e ∈ entries, (∀ field ∈ Recorded.schema Message, field.name ≠ e.name) →
      ∀ rest, skip (e.value ++ rest) = .ok rest := by
    intro e he hunknown rest
    rcases (hmem e).mp he with hown | hother
    · obtain ⟨field, hfield, heq⟩ := mem_fieldNames.mp (h.read hown).1
      exact absurd heq (hunknown field hfield)
    · rcases (hothers e hother).2.skip rest with hpassed | ⟨hdeep, -⟩
      · exact hpassed
      · exact absurd hdeep (by decide)
  have honce : ∀ field ∈ Recorded.schema Message, (names entries).count field.name ≤ 1 := by
    intro field hfield
    rw [hnames.count_eq]
    exact h.count_le hforeign (mem_fieldNames.mpr ⟨field, hfield, rfl⟩)
  have hrequired : ∀ field ∈ Recorded.schema Message, field.optional = false →
      field.name ∈ names entries := by
    rw [forall_required, hnames.mem_iff, hnames.mem_iff, h.mem_names, h.mem_names]
    exact ⟨.inl (by simp), .inl (by simp)⟩
  have hread := Schema.read_of_once LawfulRecorded.wellFormed hlabels hknown hskipped honce
    hrequired hform trailing
  simp only [hnames.mem_iff, h.values_eq] at hread
  simp only [Codec.records, Recorded.decode, hread, LawfulRecorded.ofValues?_values,
    Except.mapError]

end

theorem names_of_decode {entries : List Entry} {bs trailing : Bytes} {message : Message}
    (hform : MapForm entries bs)
    (hentries : ∀ e ∈ entries, e.Labelled ∧ ∃ depth, Items depth 1 e.value)
    (hok : Codec.records.decode (bs ++ trailing) = .ok message) :
    (∀ name ∈ fieldNames, (names entries).count name ≤ 1) ∧
      "key" ∈ names entries ∧ "payload" ∈ names entries := by
  cases hread : (Recorded.schema Message).read (bs ++ trailing) with
  | error fault => simp [Codec.records, Recorded.decode, hread, Except.mapError] at hok
  | ok out =>
    have honce := Schema.once_of_read LawfulRecorded.wellFormed (fun e he => (hentries e he).1)
      (fun e he => (hentries e he).2) hform hread
    refine ⟨?_, forall_required.mp fun field hfield => (honce field hfield).2⟩
    intro name hname
    obtain ⟨field, hfield, rfl⟩ := mem_fieldNames.mp hname
    exact (honce field hfield).1

end Message

theorem Codec.exists_detail {bs : Bytes} (h : ∀ message, records.decode bs ≠ .ok message) :
    ∃ detail, records.decode bs = .error (.decode detail) := by
  cases hdecode : Recorded.decode (α := Message) bs with
  | error fault => exact ⟨fault.name, by simp only [records, hdecode, Except.mapError]⟩
  | ok message =>
    exact absurd (by simp only [records, hdecode, Except.mapError]) (h message)

/-- Whatever the order of the entries of a map, with their number in front or a break behind: a
message is decoded from the entries of its fields among others, whose names are texts that are
held at once and whose items nest as deep as the limit allows inside the map itself. Where a
field is named twice, or the key or the payload is not named, nothing is decoded. -/
theorem messages_among_entries (entries : List Entry) (bs trailing : Bytes)
    (hform : MapForm entries bs) :
    (∀ (message : Message) (key payload : Entry) (ids others : List Entry),
      message.FieldEntries key payload ids →
      (∀ e ∈ others, e.name ∉ Message.fieldNames ∧ Items (nestingLimit - 1) 1 e.value) →
      (∀ e ∈ entries, e.LabelledAtOnce) →
      entries.Perm (key :: payload :: ids ++ others) →
      Codec.records.decode (bs ++ trailing) = .ok message) ∧
    ((∀ e ∈ entries, e.Labelled ∧ ∃ depth, Items depth 1 e.value) →
      (∃ name ∈ Message.fieldNames, 2 ≤ (names entries).count name) ∨
        "key" ∉ names entries ∨ "payload" ∉ names entries →
      ∃ detail, Codec.records.decode (bs ++ trailing) = .error (.decode detail)) := by
  constructor
  · intro message key payload ids others hfields hothers hlabels horder
    exact hfields.decode hform hothers hlabels horder trailing
  · intro hentries hfault
    refine Codec.exists_detail fun message hok => ?_
    obtain ⟨honce, hkey, hpayload⟩ := Message.names_of_decode hform hentries hok
    rcases hfault with ⟨name, hname, htwice⟩ | hnoKey | hnoPayload
    · exact absurd (honce name hname) (Nat.not_le.mpr htwice)
    · exact hnoKey hkey
    · exact hnoPayload hpayload

def mixedEntries : List Entry :=
  [.named "x" [0x82, 0x01, 0xbf, 0x61, 0x61, 0xf6, 0xff], .named "client_id" [0xf6],
    .named "payload" [0x5f, 0x41, 0x68, 0x41, 0x69, 0xff], .named "key" [0x19, 0x00, 0x07]]

def keyTwice : List Entry :=
  [.named "key" [0x00], .named "payload" [0x40], .named "key" [0x00]]

theorem items_nested : Items (nestingLimit - 1) 1 [0x82, 0x01, 0xbf, 0x61, 0x61, 0xf6, 0xff] := by
  have hone : IntegerForm (1 : Nat) [0x01] := .positive (.short (by decide))
  have htext : StringForm 3 (["a"].map Bytes.ofString) [0x61, 0x61] := .whole (.short (by decide))
  have hnull : Leaf [0xf6] := .constant 0xf6 (by decide)
  have hmap : Items 254 1 ([0xbf] ++ ([0x61, 0x61] ++ [0xf6]) ++ [0xff] ++ []) :=
    .map (n := 1) .endless (.leaf (.text htext) (hnull.items _)) (.nil _)
  have harray : Items 255 1 ([0x82] ++ ([0x01] ++ ([0xbf] ++ ([0x61, 0x61] ++ [0xf6]) ++ [0xff] ++
      [])) ++ [] ++ []) :=
    .array (.counted (.short (by decide))) (.leaf (.integer hone) hmap) (.nil _)
  exact harray

theorem messages_among_entries_mixed :
    Codec.records.decode ([0xbf] ++ mixedEntries.flatMap Entry.write ++ [0xff] ++ [0x1c]) =
      .ok ⟨7, none, [0x68, 0x69]⟩ ∧
    ∃ detail, Codec.records.decode ([0xa3] ++ keyTwice.flatMap Entry.write ++ [] ++ [0x1c]) =
      .error (.decode detail) := by
  have hmixed : MapForm mixedEntries ([0xbf] ++ mixedEntries.flatMap Entry.write ++ [0xff]) :=
    ⟨_, _, .endless, rfl⟩
  have htwice : MapForm keyTwice ([0xa3] ++ keyTwice.flatMap Entry.write ++ []) :=
    ⟨_, _, .counted (.short (by decide)), rfl⟩
  have hzero : IntegerForm (0 : Nat) [0x00] := .positive (.short (by decide))
  have hempty : StringForm 2 [[]] [0x40] := .whole (.short (by decide))
  constructor
  · refine (messages_among_entries _ _ _ hmixed).1 _ (.named "key" [0x19, 0x00, 0x07])
      (.named "payload" [0x5f, 0x41, 0x68, 0x41, 0x69, 0xff]) [.named "client_id" [0xf6]]
      [.named "x" [0x82, 0x01, 0xbf, 0x61, 0x61, 0xf6, 0xff]] ?_ ?_ ?_
      (List.reverse_perm mixedEntries.reverse)
    · have hpieces : Pieces 2 [[0x68], [0x69]] [0x41, 0x68, 0x41, 0x69] :=
        .cons (.short (by decide)) (.cons (.short (by decide)) .nil)
      exact ⟨rfl, .positive (.wide 25 2 (by simp) (by decide)), rfl, ⟨_, .pieces hpieces, rfl⟩,
        .null rfl rfl⟩
    · simp only [List.mem_singleton, forall_eq]
      exact ⟨by decide, items_nested⟩
    · simp only [mixedEntries, List.forall_mem_cons]
      exact ⟨Entry.labelledAtOnce_named (by decide) _, Entry.labelledAtOnce_named (by decide) _,
        Entry.labelledAtOnce_named (by decide) _, Entry.labelledAtOnce_named (by decide) _,
        by simp⟩
  · refine (messages_among_entries _ _ _ htwice).2 ?_ (.inl ⟨"key", by decide, by decide⟩)
    simp only [keyTwice, List.forall_mem_cons]
    exact ⟨⟨(Entry.labelledAtOnce_named (by decide) _).labelled, 0, (Leaf.integer hzero).items 0⟩,
      ⟨(Entry.labelledAtOnce_named (by decide) _).labelled, 0, (Leaf.octets hempty).items 0⟩,
      ⟨(Entry.labelledAtOnce_named (by decide) _).labelled, 0, (Leaf.integer hzero).items 0⟩,
      by simp⟩

def piecedName : Entry := ⟨"a", [0x7f, 0x61, 0x61, 0xff], [0x00]⟩

def piecedMap : Bytes :=
  [0xa3] ++ [.named "key" [0x00], .named "payload" [0x40], piecedName].flatMap Entry.write

/-- A label in pieces is a text as well, however short, and is refused where one in one piece
is passed over. -/
theorem pieced_name_refused :
    Message.FieldEntries ⟨0, none, []⟩ (.named "key" [0x00]) (.named "payload" [0x40]) [] ∧
    (Entry.named "key" [0x00]).LabelledAtOnce ∧ (Entry.named "payload" [0x40]).LabelledAtOnce ∧
    piecedName.Labelled ∧ piecedName.name.utf8ByteSize ≤ windowSize ∧
    piecedName.name ∉ Message.fieldNames ∧ Items (nestingLimit - 1) 1 piecedName.value ∧
    MapForm [.named "key" [0x00], .named "payload" [0x40], piecedName] piecedMap ∧
    Codec.records.decode piecedMap = .error (.decode "Semantic") := by
  have hzero : IntegerForm (0 : Nat) [0x00] := .positive (.short (by decide))
  have hempty : StringForm 2 [[]] [0x40] := .whole (.short (by decide))
  have hname : Pieces 3 (["a"].map Bytes.ofString) [0x61, 0x61] := .cons (.short (by decide)) .nil
  have hrefused : (match Codec.records.decode piecedMap with
      | .error e => some e
      | .ok _ => none) = some (.decode "Semantic") := by decide +kernel
  refine ⟨⟨rfl, hzero, rfl, ⟨_, hempty, rfl⟩, .leftOut⟩, Entry.labelledAtOnce_named (by decide) _,
    Entry.labelledAtOnce_named (by decide) _, ⟨["a"], .pieces hname, by decide⟩, by decide,
    by decide, (Leaf.integer hzero).items _,
    ⟨_, _, .counted (.short (by decide)), (List.append_nil _).symm⟩, ?_⟩
  cases hdecode : Codec.records.decode piecedMap with
  | error e =>
    rw [hdecode] at hrefused
    exact congrArg Except.error (Option.some.inj hrefused)
  | ok message => simp [hdecode] at hrefused

end CipherLink
