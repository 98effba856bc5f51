import CipherLink.Cbor.Record
import Mathlib.Tactic.SplitIfs

/-!
# One step of each reader

The readers that go from item to item, or from tag to tag, as one step each: what is read
first decides what is read next, with a fault in between ending them.
-/

namespace CipherLink.Cbor

theorem bind_eq_ok {α β : Type} {x : Except Fault α} {k : α → Except Fault β} {b : β}
    (h : x >>= k = .ok b) : ∃ a, x = .ok a ∧ k a = .ok b := by
  cases x with
  | error fault => cases h
  | ok a => exact ⟨a, rfl, h⟩

theorem readPastTags_eq (bs : Bytes) : readPastTags bs = (do
    let (header, rest) ← Header.read bs
    match header with
    | .tag _ => readPastTags rest
    | header => .ok (header, rest)) := by
  rw [readPastTags]
  cases Header.read bs with
  | error fault => rfl
  | ok out =>
    obtain ⟨header, rest⟩ := out
    cases header <;> rfl

theorem Segments.readRest_eq {α : Type} (kind : Segments α) (depth : Nat) (gathered : α)
    (bs : Bytes) : kind.readRest depth gathered bs = (do
    let (header, rest) ← Header.read bs
    match header with
    | .stop =>
      match depth with
      | 0 => .ok (gathered, rest)
      | outer + 1 => kind.readRest outer gathered rest
    | header =>
      match kind.lengthOf header with
      | none => .error .syntactic
      | some none => kind.readRest (depth + 1) gathered rest
      | some (some length) => do
        let (more, rest) ← kind.content gathered length rest
        kind.readRest depth more rest) := by
  rw [readRest]
  rcases Header.read bs with fault | ⟨header, rest⟩
  · rfl
  · by_cases hstop : header = .stop
    · subst hstop
      cases depth <;> rfl
    · rcases hlength : kind.lengthOf header with _ | _ | length
      · simp only [hlength, bind, Except.bind]
      · simp only [hlength, bind, Except.bind]
      · simp only [hlength, bind, Except.bind]
        cases kind.content gathered length rest <;> rfl

theorem readBignum_eq (bs : Bytes) : readBignum bs = (do
    let (header, rest) ← Header.read bs
    match header with
    | .bytes length => do
      let (digits, rest) ← Segments.digits.read [] length rest
      .ok (digits.toNat, rest)
    | _ => .error .semantic) := by
  rw [readBignum]
  rcases Header.read bs with fault | ⟨header, rest⟩
  · rfl
  · cases header with
    | bytes length =>
      simp only [bind, Except.bind]
      cases Segments.digits.read [] length rest <;> rfl
    | _ => rfl

theorem readInteger_eq (bs : Bytes) : readInteger bs = (do
    let (header, rest) ← Header.read bs
    match header with
    | .positive n => .ok (signed false n, rest)
    | .negative n => .ok (signed true n, rest)
    | .tag t =>
      if t = positiveBignumTag ∨ t = negativeBignumTag then do
        let (n, rest) ← readBignum rest
        .ok (signed (t = negativeBignumTag) n, rest)
      else readInteger rest
    | _ => .error .semantic) := by
  rw [readInteger]
  rcases Header.read bs with fault | ⟨header, rest⟩
  · rfl
  · cases header with
    | tag t =>
      simp only [bind, Except.bind]
      cases readBignum rest <;> rfl
    | _ => rfl

theorem readIntegerIn_eq (low high : Int) (bs : Bytes) : readIntegerIn low high bs = (do
    let (n, rest) ← readInteger bs
    if low ≤ n ∧ n ≤ high then .ok (n, rest) else .error .semantic) := by
  rw [readIntegerIn]
  cases readInteger bs <;> rfl

theorem readOctetArray_eq (left : Option Nat) (bs : Bytes) : readOctetArray left bs =
    (match Header.continuation left bs with
    | .finished rest => .ok ([], rest)
    | .element others => do
      let (n, rest) ← readIntegerIn 0 255 bs
      let (more, rest) ← readOctetArray others rest
      .ok (UInt8.ofNat n.toNat :: more, rest)) := by
  rw [readOctetArray]
  cases Header.continuation left bs with
  | finished rest => rfl
  | element others =>
    rcases readIntegerIn 0 255 bs with fault | ⟨n, rest⟩
    · rfl
    · simp only [bind, Except.bind]
      cases readOctetArray others rest <;> rfl

theorem readOctetString_eq (bs : Bytes) : readOctetString bs = (do
    let (header, rest) ← readPastTags bs
    match header with
    | .bytes length => Segments.octets.read [] length rest
    | .array length => readOctetArray length rest
    | _ => .error .semantic) := by
  rw [readOctetString]
  rcases readPastTags bs with fault | ⟨header, rest⟩
  · rfl
  · cases header <;> rfl

theorem readFixed_eq (length : Nat) (bs : Bytes) : readFixed length bs = (do
    let (header, rest) ← readPastTags bs
    match header with
    | .bytes (some n) =>
      if windowSize < n then .error .semantic
      else do
        let (content, rest) ← readOctets [] n rest
        if n = length then .ok (content, rest) else .error .semantic
    | _ => .error .semantic) := by
  rw [readFixed]
  rcases readPastTags bs with fault | ⟨header, rest⟩
  · rfl
  · rcases header with _ | _ | (_ | n) | _ | _ | _ | _ | _ | _ | _ <;> try rfl
    simp only [bind, Except.bind]
    cases readOctets [] n rest <;> rfl

theorem readTextItem_eq (bs : Bytes) : readTextItem bs = (do
    let (header, rest) ← readPastTags bs
    match header with
    | .text length => Segments.text.read "" length rest
    | _ => .error .semantic) := by
  rw [readTextItem]
  rcases readPastTags bs with fault | ⟨header, rest⟩
  · rfl
  · cases header <;> rfl

theorem asValue_eq {α : Type} (make : α → Value) (result : Except Fault (α × Bytes)) :
    asValue make result = (do
      let (a, rest) ← result
      .ok (make a, rest)) := by
  cases result <;> rfl

theorem Kind.readOptional_eq (kind : Kind) (bs : Bytes) : kind.readOptional bs = (do
    let (header, rest) ← Header.read bs
    if header.isAbsent then .ok (.absent, rest) else kind.read bs) := by
  rw [readOptional]
  cases Header.read bs <;> rfl

theorem skipHeader_eq (stack : List Open) (header : Header) (bs : Bytes) :
    skipHeader stack header bs =
      (match header with
      | .positive _ | .negative _ | .float => .ok (stack, bs)
      | .bytes length => do
        let (_, rest) ← Segments.octets.read [] length bs
        .ok (stack, rest)
      | .text length => do
        let (_, rest) ← Segments.text.read "" length bs
        .ok (stack, rest)
      | .array length => do
        let stack ← nest (length.elim .endless .items) stack
        .ok (stack, bs)
      | .map length => do
        let stack ← nest (length.elim (.pairs false) fun n => .items (2 * n)) stack
        .ok (stack, bs)
      | .tag t => do
        let (content, _) ← Header.read bs
        if isBignum t content then do
          let (n, rest) ← readBignum bs
          if t = negativeBignumTag ∧ 1 <<< 127 ≤ n then .error .semantic else .ok (stack, rest)
        else do
          let stack ← nest (.items 1) stack
          .ok (stack, bs)
      | .simple n => if 20 ≤ n ∧ n ≤ 23 then .ok (stack, bs) else .error .semantic
      | .stop => .error .semantic) := by
  cases header with
  | bytes length =>
    simp only [skipHeader, bind, Except.bind]
    cases Segments.octets.read [] length bs <;> rfl
  | text length =>
    simp only [skipHeader, bind, Except.bind]
    cases Segments.text.read "" length bs <;> rfl
  | array length =>
    cases length <;> simp only [skipHeader, Option.elim, bind, Except.bind] <;>
      cases nest _ stack <;> rfl
  | map length =>
    cases length <;> simp only [skipHeader, Option.elim, bind, Except.bind] <;>
      cases nest _ stack <;> rfl
  | tag t =>
    simp only [skipHeader, bind, Except.bind]
    rcases Header.read bs with fault | ⟨content, rest⟩
    · rfl
    · dsimp only
      split_ifs
      · cases readBignum bs <;> rfl
      · cases nest (.items 1) stack <;> rfl
  | _ => rfl

theorem skipOpen_eq {top : Open} (htop : top ≠ .items 0) (stack : List Open) (bs : Bytes) :
    skipOpen (top :: stack) bs = (do
      let (header, rest) ← Header.read bs
      if header = .stop ∧ top.mayStop then skipOpen stack rest
      else do
        let (stack, rest) ← skipHeader (top.next :: stack) header rest
        skipOpen stack rest) := by
  rw [skipOpen]
  · rcases Header.read bs with fault | ⟨header, rest⟩
    · rfl
    · simp only [bind, Except.bind]
      cases skipHeader (top.next :: stack) header rest <;> rfl
  · exact fun h => htop h

theorem readName_eq (bs : Bytes) : readName bs = (do
    let (header, rest) ← readPastTags bs
    match header with
    | .text (some n) =>
      if windowSize < n then .error .semantic
      else do
        let (name, rest) ← readOctets [] n rest
        if name.utf8?.isSome then .ok (name, rest) else .error .syntactic
    | .bytes (some n) => if windowSize < n then .error .semantic else readOctets [] n rest
    | _ => .error .semantic) := by
  rw [readName]
  rcases readPastTags bs with fault | ⟨header, rest⟩
  · rfl
  · rcases header with _ | _ | (_ | n) | (_ | n) | _ | _ | _ | _ | _ | _ <;> try rfl
    simp only [bind, Except.bind]
    cases readOctets [] n rest <;> rfl

theorem Schema.readField_eq (schema : Schema) (slots : Slots) (name bs : Bytes) :
    schema.readField slots name bs =
      (match schema.findIdx? fun field => Bytes.ofString field.name == name with
      | none => do
        let rest ← skip bs
        .ok (slots, rest)
      | some i =>
        match schema[i]?, slots[i]? with
        | some field, some none => do
          let (value, rest) ← field.read bs
          .ok (slots.set i (some value), rest)
        | _, _ => .error .semantic) := by
  rw [readField]
  rcases schema.findIdx? _ with _ | i
  · dsimp only
    cases skip bs <;> rfl
  · dsimp only
    rcases schema[i]? with _ | field
    · rfl
    · rcases slots[i]? with _ | _ | value
      · rfl
      · simp only [bind, Except.bind]
        cases field.read bs <;> rfl
      · rfl

theorem Schema.readEntries_eq (schema : Schema) (left : Option Nat) (slots : Slots) (bs : Bytes) :
    schema.readEntries left slots bs =
      (match Header.continuation left bs with
      | .finished rest => .ok (slots, rest)
      | .element others => do
        let (name, rest) ← readName bs
        let (slots, rest) ← schema.readField slots name rest
        schema.readEntries others slots rest) := by
  rw [readEntries]
  cases Header.continuation left bs with
  | finished rest => rfl
  | element others =>
    rcases readName bs with fault | ⟨name, rest⟩
    · rfl
    · simp only [bind, Except.bind]
      cases schema.readField slots name rest <;> rfl

theorem Schema.read_eq (schema : Schema) (bs : Bytes) : schema.read bs = (do
    let (header, rest) ← readPastTags bs
    match header with
    | .map length => do
      let (slots, rest) ← schema.readEntries length (schema.map fun _ => none) rest
      let values ← fill schema slots
      .ok (values, rest)
    | _ => .error .semantic) := by
  rw [read]
  rcases readPastTags bs with fault | ⟨header, rest⟩
  · rfl
  · cases header with
    | map length =>
      simp only [bind, Except.bind]
      rcases schema.readEntries length (schema.map fun _ => none) rest with fault | ⟨slots, rest⟩
      · rfl
      · dsimp only
        cases fill schema slots <;> rfl
    | _ => rfl

end CipherLink.Cbor
