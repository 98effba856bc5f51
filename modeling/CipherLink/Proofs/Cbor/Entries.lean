import CipherLink.Proofs.Cbor.ItemEnds
import CipherLink.Proofs.Cbor.Records

/-!
# Maps with any entries

A record is read from a map whose entries come in any order. One entry behind another is read,
and what fills the slots in the end is told by the names of the entries alone: each entry of a
field fills the slot of that field, and none is filled twice.
-/

namespace CipherLink.Cbor

/-- An entry of a map: the name that its label spells, and the bytes of the label and the
value. -/
structure Entry where
  name : String
  label : Bytes
  value : Bytes

namespace Entry

def write (e : Entry) : Bytes := e.label ++ e.value

def Labelled (e : Entry) : Prop :=
  ∃ texts : List String, StringForm 3 (texts.map Bytes.ofString) e.label ∧
    String.join texts = e.name

def LabelledAtOnce (e : Entry) : Prop :=
  e.name.utf8ByteSize ≤ windowSize ∧
    ∃ head, HeaderForm 3 e.name.utf8ByteSize head ∧ e.label = head ++ Bytes.ofString e.name

theorem Labelled.read {e : Entry} (h : e.Labelled) (rest : Bytes) :
    ∃ length behind, Header.read (e.label ++ rest) = .ok (.text length, behind) ∧
      ∀ n, length = some n → readOctets [] n behind = .ok (Bytes.ofString e.name, rest) := by
  obtain ⟨texts, hform, hname⟩ := h
  generalize hcontents : texts.map Bytes.ofString = contents at hform
  generalize e.label = label at hform ⊢
  cases hform with
  | @whole content head hform =>
    obtain ⟨text, rfl, rfl⟩ := List.map_eq_singleton_iff.mp hcontents
    have hjoin : e.name = text := by simp [← hname, String.join]
    refine ⟨some (Bytes.ofString text).length, Bytes.ofString text ++ rest, ?_, ?_⟩
    · rw [List.append_assoc]
      exact hform.read (by decide) (fun _ => rfl) _
    · rintro n ⟨⟩
      rw [hjoin]
      exact readOctets_append [] _ rest
  | @pieces contents body hform =>
    refine ⟨none, body ++ 0xff :: rest, ?_, by simp⟩
    rw [List.append_assoc, List.append_assoc]
    rfl

theorem Labelled.of_readName {e : Entry} (h : e.Labelled) {rest name rest' : Bytes}
    (hok : readName (e.label ++ rest) = .ok (name, rest')) :
    name = Bytes.ofString e.name ∧ rest' = rest := by
  obtain ⟨length, behind, hread, hcontent⟩ := h.read rest
  rw [readName_eq, readPastTags_of_read hread (by simp)] at hok
  cases length with
  | none => simp [bind, Except.bind] at hok
  | some n =>
    simp only [bind, Except.bind, hcontent n rfl, Bytes.utf8?_ofString, Option.isSome_some,
      if_true] at hok
    split_ifs at hok
    simp only [Except.ok.injEq, Prod.mk.injEq] at hok
    exact ⟨hok.1.symm, hok.2.symm⟩

theorem LabelledAtOnce.labelled {e : Entry} (h : e.LabelledAtOnce) : e.Labelled := by
  obtain ⟨-, head, hform, hlabel⟩ := h
  rw [← Bytes.length_ofString] at hform
  refine ⟨[e.name], ?_, by simp [String.join]⟩
  rw [hlabel]
  exact .whole hform

def named (name : String) (value : Bytes) : Entry := ⟨name, (Value.text name).write, value⟩

theorem labelledAtOnce_named {name : String} (h : name.utf8ByteSize ≤ windowSize)
    (value : Bytes) : (named name value).LabelledAtOnce := by
  refine ⟨h, _, headerForm_writeArgument 3 (Nat.lt_of_le_of_lt h windowSize_lt), ?_⟩
  rw [← Bytes.length_ofString]
  rfl

theorem LabelledAtOnce.readName {e : Entry} (h : e.LabelledAtOnce) (rest : Bytes) :
    readName (e.label ++ rest) = .ok (Bytes.ofString e.name, rest) := by
  obtain ⟨hshort, head, hform, hlabel⟩ := h
  have hread : Header.read (e.label ++ rest) =
      .ok (.text (some e.name.utf8ByteSize), Bytes.ofString e.name ++ rest) := by
    rw [hlabel, List.append_assoc]
    exact hform.read (by decide) (fun _ => rfl) _
  have hcontent := readOctets_append [] (Bytes.ofString e.name) rest
  rw [Bytes.length_ofString] at hcontent
  rw [readName_eq, readPastTags_of_read hread (by simp)]
  simp only [bind, Except.bind, Nat.not_lt.mpr hshort, if_false, hcontent, List.nil_append,
    Bytes.utf8?_ofString, Option.isSome_some, if_true]

end Entry

def names (entries : List Entry) : List String := entries.map Entry.name

@[simp] theorem names_cons (e : Entry) (entries : List Entry) :
    names (e :: entries) = e.name :: names entries := rfl

/-- A map with these entries, with their number in front or a break behind. -/
def MapForm (entries : List Entry) (bs : Bytes) : Prop :=
  ∃ opening closing, Bracket 5 entries.length opening closing ∧
    bs = opening ++ entries.flatMap Entry.write ++ closing

namespace Schema

def slots (schema : Schema) (held : String → Option Value) : Slots :=
  schema.map fun field => held field.name

theorem slots_congr {schema : Schema} {held held' : String → Option Value}
    (h : ∀ field ∈ schema, held field.name = held' field.name) :
    schema.slots held = schema.slots held' :=
  List.map_congr_left h

theorem slots_set {front back : Schema} {field : Field}
    (h : WellFormed (front ++ field :: back)) (held : String → Option Value) (value : Value) :
    (slots (front ++ field :: back) held).set front.length (some value) =
      slots (front ++ field :: back) (Function.update held field.name (some value)) := by
  have hnodup := h.nodup
  simp only [List.map_append, List.map_cons, List.nodup_append, List.nodup_cons, List.mem_cons,
    List.mem_map] at hnodup
  have hother (f : Field) (hf : f ∈ front ∨ f ∈ back) :
      held f.name = Function.update held field.name (some value) f.name := by
    refine (Function.update_of_ne ?_ _ _).symm
    intro heq
    rcases hf with hf | hf
    · exact hnodup.2.2 f.name ⟨f, hf, rfl⟩ field.name (.inl rfl) heq
    · exact hnodup.2.1.1 ⟨f, hf, heq⟩
  have hfront := slots_congr fun f hf => hother f (.inl hf)
  have hback := slots_congr fun f hf => hother f (.inr hf)
  simp only [slots] at hfront hback
  simp only [slots, List.map_append, List.map_cons, ← hfront, ← hback, Function.update_self]
  rw [List.set_append_right _ _ (by simp)]
  simp

theorem readField_known {schema : Schema} (h : schema.WellFormed) {field : Field}
    (hfield : field ∈ schema) (held : String → Option Value) (bs : Bytes) :
    schema.readField (schema.slots held) (Bytes.ofString field.name) bs =
      (match held field.name with
      | none => do
        let (value, rest) ← field.read bs
        .ok (schema.slots (Function.update held field.name (some value)), rest)
      | some _ => .error .semantic) := by
  obtain ⟨front, back, rfl⟩ := List.append_of_mem hfield
  have hslot : (slots (front ++ field :: back) held)[front.length]? = some (held field.name) := by
    simp [slots]
  have hlisted : (front ++ field :: back)[front.length]? = some field := by simp
  rw [readField_eq, findIdx?_name h]
  simp only [hslot, hlisted, ← slots_set h]
  cases held field.name <;> rfl

theorem readField_unknown {schema : Schema} {name : String}
    (h : ∀ field ∈ schema, field.name ≠ name) (slots : Slots) (bs : Bytes) :
    schema.readField slots (Bytes.ofString name) bs = (do
      let rest ← skip bs
      .ok (slots, rest)) := by
  have hindex : schema.findIdx? (fun field => Bytes.ofString field.name == Bytes.ofString name) =
      none := by
    rw [List.findIdx?_eq_none_iff]
    intro field hfield
    rw [beq_eq_false_iff_ne]
    exact fun heq => h field hfield (Bytes.ofString_injective heq)
  rw [readField_eq, hindex]

theorem readEntries_entry {e : Entry} (h : e.Labelled) {n : Nat} {left : Option Nat}
    {closing : Bytes} (hending : Ending (n + 1) left closing) :
    ∃ others, Ending n others closing ∧ ∀ (schema : Schema) (slots : Slots) (behind : Bytes),
      schema.readEntries left slots (e.write ++ behind) = (do
        let (name, rest) ← readName (e.label ++ (e.value ++ behind))
        let (slots, rest) ← schema.readField slots name rest
        schema.readEntries others slots rest) := by
  cases hending with
  | counted =>
    refine ⟨some n, .counted, fun schema slots behind => ?_⟩
    rw [readEntries_eq, Entry.write, List.append_assoc]
    rfl
  | endless =>
    refine ⟨none, .endless, fun schema slots behind => ?_⟩
    obtain ⟨length, _, hheader, -⟩ := h.read (e.value ++ behind)
    have hcontinues : Header.continuation none (e.label ++ (e.value ++ behind)) =
        .element none := by
      simp only [Header.continuation, hheader]
    rw [readEntries_eq, Entry.write, List.append_assoc, hcontinues]

def afterEntries (entries : List Entry) (value : String → Value) (held : String → Option Value)
    (name : String) : Option Value :=
  if name ∈ names entries then some (value name) else held name

theorem afterEntries_cons (e : Entry) (entries : List Entry) (value : String → Value)
    (held : String → Option Value) : afterEntries (e :: entries) value held =
      afterEntries entries value (Function.update held e.name (some (value e.name))) := by
  funext name
  by_cases hmem : name ∈ names entries
  · simp [afterEntries, hmem]
  · by_cases heq : name = e.name
    · subst heq
      simp [afterEntries, hmem]
    · simp [afterEntries, hmem, heq]

theorem readEntries_of_once {schema : Schema} (h : schema.WellFormed) {value : String → Value}
    {entries : List Entry} (hlabels : ∀ e ∈ entries, e.LabelledAtOnce)
    (hknown : ∀ e ∈ entries, ∀ field ∈ schema, field.name = e.name →
      ∀ rest, field.read (e.value ++ rest) = .ok (value e.name, rest))
    (hothers : ∀ e ∈ entries, (∀ field ∈ schema, field.name ≠ e.name) →
      ∀ rest, skip (e.value ++ rest) = .ok rest)
    (honce : ∀ field ∈ schema, (names entries).count field.name ≤ 1)
    {left : Option Nat} {closing : Bytes} (hending : Ending entries.length left closing)
    {held : String → Option Value}
    (hfree : ∀ field ∈ schema, field.name ∈ names entries → held field.name = none)
    (rest : Bytes) :
    schema.readEntries left (schema.slots held)
      (entries.flatMap Entry.write ++ (closing ++ rest)) =
        .ok (schema.slots (afterEntries entries value held), rest) := by
  -- By induction on the entries, with those slots empty that the entries to come will fill.
  induction entries generalizing left held with
  | nil =>
    rw [List.flatMap_nil, List.nil_append, readEntries_eq, hending.finished]
    rfl
  | cons e entries ih =>
    have hlabel := hlabels e List.mem_cons_self
    obtain ⟨others, hends, hstep⟩ := readEntries_entry hlabel.labelled hending
    have hcount (field : Field) (hfield : field ∈ schema) :
        (names entries).count field.name + (if e.name == field.name then 1 else 0) ≤ 1 := by
      rw [← List.count_cons, ← names_cons]
      exact honce field hfield
    -- a field that this entry names is not named again
    have hfresh (field : Field) (hfield : field ∈ schema) (hmem : field.name ∈ names entries) :
        field.name ≠ e.name := by
      intro heq
      have hpos := List.count_pos_iff.mpr hmem
      have hone := hcount field hfield
      rw [if_pos (by simp [heq])] at hone
      omega
    have hnext {held : String → Option Value}
        (hfree : ∀ field ∈ schema, field.name ∈ names entries → held field.name = none) :
        schema.readEntries others (schema.slots held)
          (entries.flatMap Entry.write ++ (closing ++ rest)) =
            .ok (schema.slots (afterEntries entries value held), rest) :=
      ih (fun e he => hlabels e (List.mem_cons_of_mem _ he))
        (fun e he => hknown e (List.mem_cons_of_mem _ he))
        (fun e he => hothers e (List.mem_cons_of_mem _ he))
        (fun field hfield => Nat.le_of_add_right_le (hcount field hfield)) hends hfree
    rw [List.flatMap_cons, List.append_assoc, hstep]
    simp only [hlabel.readName, bind, Except.bind]
    by_cases hexists : ∃ field ∈ schema, field.name = e.name
    · obtain ⟨field, hfield, heq⟩ := hexists
      have hempty : held field.name = none := hfree field hfield (by simp [names_cons, heq])
      rw [← heq, readField_known h hfield, hempty]
      simp only [hknown e List.mem_cons_self field hfield heq, bind, Except.bind]
      rw [afterEntries_cons, heq]
      refine hnext fun f hf hmem => ?_
      rw [Function.update_of_ne (hfresh f hf hmem)]
      exact hfree f hf (List.mem_cons_of_mem _ hmem)
    · have hunknown : ∀ field ∈ schema, field.name ≠ e.name := by simpa using hexists
      rw [readField_unknown hunknown]
      simp only [hothers e List.mem_cons_self hunknown, bind, Except.bind]
      rw [hnext fun f hf hmem => hfree f hf (List.mem_cons_of_mem _ hmem), afterEntries_cons]
      refine congrArg (fun slots => Except.ok (slots, rest)) (slots_congr fun f hf => ?_)
      simp only [afterEntries, Function.update_of_ne (hunknown f hf)]

def heldFor (held : String → Option Value) (name : String) : Nat :=
  (held name).toList.length

theorem heldFor_of_readField {schema : Schema} (h : schema.WellFormed) {name : String}
    {item : Bytes} {depth : Nat} (hitem : Items depth 1 item) {held : String → Option Value}
    {slots : Slots} {rest rest' : Bytes}
    (hok : schema.readField (schema.slots held) (Bytes.ofString name) (item ++ rest) =
      .ok (slots, rest')) :
    rest' = rest ∧ ∃ held', slots = schema.slots held' ∧ ∀ field ∈ schema,
      heldFor held' field.name = heldFor held field.name + if name == field.name then 1 else 0 := by
  by_cases hexists : ∃ field ∈ schema, field.name = name
  · obtain ⟨field, hfield, rfl⟩ := hexists
    rw [readField_known h hfield] at hok
    cases hempty : held field.name with
    | some value => simp [hempty] at hok
    | none =>
      simp only [hempty] at hok
      obtain ⟨⟨value, tail⟩, hread, hok⟩ := bind_eq_ok hok
      simp only [Except.ok.injEq, Prod.mk.injEq] at hok
      obtain ⟨rfl, rfl⟩ := hok
      refine ⟨hitem.of_readField hread, _, rfl, fun f hf => ?_⟩
      by_cases heq : f.name = field.name
      · simp [heldFor, heq, hempty]
      · simp [heldFor, heq, Ne.symm heq]
  · have hunknown : ∀ field ∈ schema, field.name ≠ name := by simpa using hexists
    rw [readField_unknown hunknown] at hok
    obtain ⟨tail, hskip, hok⟩ := bind_eq_ok hok
    simp only [Except.ok.injEq, Prod.mk.injEq] at hok
    obtain ⟨rfl, rfl⟩ := hok
    refine ⟨?_, held, rfl, fun f hf => by simp [Ne.symm (hunknown f hf)]⟩
    rcases hitem.skip rest with hpassed | ⟨-, hdeep⟩
    · rw [hpassed, Except.ok.injEq] at hskip
      exact hskip.symm
    · simp [hdeep] at hskip

theorem heldFor_of_readEntries {schema : Schema} (h : schema.WellFormed) {entries : List Entry}
    (hlabels : ∀ e ∈ entries, e.Labelled)
    (hvalues : ∀ e ∈ entries, ∃ depth, Items depth 1 e.value)
    {left : Option Nat} {closing : Bytes} (hending : Ending entries.length left closing)
    {held : String → Option Value} {slots : Slots} {rest rest' : Bytes}
    (hok : schema.readEntries left (schema.slots held)
      (entries.flatMap Entry.write ++ (closing ++ rest)) = .ok (slots, rest')) :
    ∃ held', slots = schema.slots held' ∧ ∀ field ∈ schema,
      heldFor held' field.name = heldFor held field.name + (names entries).count field.name := by
  -- By induction on the entries.
  induction entries generalizing left held with
  | nil =>
    rw [List.flatMap_nil, List.nil_append, readEntries_eq, hending.finished] at hok
    simp only [Except.ok.injEq, Prod.mk.injEq] at hok
    exact ⟨held, hok.1.symm, fun field _ => rfl⟩
  | cons e entries ih =>
    have hlabel := hlabels e List.mem_cons_self
    obtain ⟨depth, hvalue⟩ := hvalues e List.mem_cons_self
    obtain ⟨others, hends, hstep⟩ := readEntries_entry hlabel hending
    rw [List.flatMap_cons, List.append_assoc, hstep] at hok
    obtain ⟨⟨name, tail⟩, hname, hok⟩ := bind_eq_ok hok
    obtain ⟨rfl, rfl⟩ := hlabel.of_readName hname
    obtain ⟨⟨slots', tail⟩, hfield, hok⟩ := bind_eq_ok hok
    obtain ⟨rfl, held', rfl, hheld'⟩ := heldFor_of_readField h hvalue hfield
    obtain ⟨held'', rfl, hheld''⟩ := ih (fun e he => hlabels e (List.mem_cons_of_mem _ he))
      (fun e he => hvalues e (List.mem_cons_of_mem _ he)) hends hok
    refine ⟨held'', rfl, fun field hmem => ?_⟩
    rw [hheld'' field hmem, hheld' field hmem, names_cons, List.count_cons]
    omega

theorem fill_slots {schema : Schema} {held : String → Option Value}
    (h : ∀ field ∈ schema, field.optional = false → held field.name ≠ none) :
    fill schema (schema.slots held) =
      .ok (schema.map fun field => (held field.name).getD .absent) := by
  induction schema with
  | nil => rfl
  | cons field schema ih =>
    have hrest := ih fun f hf => h f (List.mem_cons_of_mem _ hf)
    have hfield := h field List.mem_cons_self
    simp only [slots, List.map_cons, fill, List.headD_cons, List.tail_cons] at hrest ⊢
    cases hheld : held field.name with
    | some value => simp [hrest]
    | none =>
      have hoptional : field.optional = true := by simpa [hheld] using hfield
      simp [hrest, hoptional]

theorem ne_none_of_fill {schema : Schema} {held : String → Option Value} {values : List Value}
    (h : fill schema (schema.slots held) = .ok values) :
    ∀ field ∈ schema, field.optional = false → held field.name ≠ none := by
  induction schema generalizing values with
  | nil => simp
  | cons field schema ih =>
    simp only [slots, List.map_cons, fill, List.headD_cons, List.tail_cons] at h ih
    cases hrest : fill schema (schema.map fun field => held field.name) with
    | error fault => cases hheld : held field.name <;> simp [hheld, hrest] at h
    | ok rest =>
      intro f hf hrequired
      rcases List.mem_cons.mp hf with rfl | hf
      · intro hnone
        simp [hnone, hrest, hrequired] at h
      · exact ih hrest f hf hrequired

theorem read_of_mapForm {entries : List Entry} {bs : Bytes} (h : MapForm entries bs) :
    ∃ left closing, Ending entries.length left closing ∧ ∀ (schema : Schema) (rest : Bytes),
      schema.read (bs ++ rest) = (do
        let (slots, rest) ← schema.readEntries left (schema.slots fun _ => none)
          (entries.flatMap Entry.write ++ (closing ++ rest))
        let values ← fill schema slots
        .ok (values, rest)) := by
  obtain ⟨opening, closing, hbracket, rfl⟩ := h
  obtain ⟨left, hending, hread⟩ := hbracket.read_map
  refine ⟨left, closing, hending, fun schema rest => ?_⟩
  have hpast := readPastTags_of_read
    (hread (entries.flatMap Entry.write ++ (closing ++ rest))) (by simp)
  rw [read_eq, List.append_assoc, List.append_assoc, hpast]
  rfl

theorem read_of_once {schema : Schema} (h : schema.WellFormed) {value : String → Value}
    {entries : List Entry} (hlabels : ∀ e ∈ entries, e.LabelledAtOnce)
    (hknown : ∀ e ∈ entries, ∀ field ∈ schema, field.name = e.name →
      ∀ rest, field.read (e.value ++ rest) = .ok (value e.name, rest))
    (hothers : ∀ e ∈ entries, (∀ field ∈ schema, field.name ≠ e.name) →
      ∀ rest, skip (e.value ++ rest) = .ok rest)
    (honce : ∀ field ∈ schema, (names entries).count field.name ≤ 1)
    (hrequired : ∀ field ∈ schema, field.optional = false → field.name ∈ names entries)
    {bs : Bytes} (hform : MapForm entries bs) (rest : Bytes) :
    schema.read (bs ++ rest) =
      .ok (schema.map fun field =>
        if field.name ∈ names entries then value field.name else .absent, rest) := by
  obtain ⟨left, closing, hending, hread⟩ := read_of_mapForm hform
  rw [hread, readEntries_of_once h hlabels hknown hothers honce hending (fun _ _ _ => rfl)]
  simp only [bind, Except.bind]
  rw [fill_slots]
  · refine congrArg (fun values => Except.ok (values, rest)) (List.map_congr_left fun field _ => ?_)
    by_cases hmem : field.name ∈ names entries <;> simp [afterEntries, hmem]
  · intro field hfield hneeded
    simp [afterEntries, hrequired field hfield hneeded]

theorem once_of_read {schema : Schema} (h : schema.WellFormed) {entries : List Entry}
    (hlabels : ∀ e ∈ entries, e.Labelled)
    (hvalues : ∀ e ∈ entries, ∃ depth, Items depth 1 e.value)
    {bs : Bytes} (hform : MapForm entries bs) {rest rest' : Bytes} {values : List Value}
    (hok : schema.read (bs ++ rest) = .ok (values, rest')) :
    ∀ field ∈ schema, (names entries).count field.name ≤ 1 ∧
      (field.optional = false → field.name ∈ names entries) := by
  obtain ⟨left, closing, hending, hread⟩ := read_of_mapForm hform
  rw [hread] at hok
  obtain ⟨⟨slots, tail⟩, hentries, hok⟩ := bind_eq_ok hok
  obtain ⟨values', hfill, -⟩ := bind_eq_ok hok
  obtain ⟨held, rfl, hheld⟩ := heldFor_of_readEntries h hlabels hvalues hending hentries
  intro field hfield
  have hcount := hheld field hfield
  simp only [heldFor, Option.toList_none, List.length_nil, Nat.zero_add] at hcount
  constructor
  · rw [← hcount]
    cases held field.name <;> simp
  · intro hneeded
    obtain ⟨value, hvalue⟩ := Option.ne_none_iff_exists'.mp
      (ne_none_of_fill hfill field hfield hneeded)
    rw [hvalue] at hcount
    exact List.count_pos_iff.mp (by simp [← hcount])

end Schema

end CipherLink.Cbor
