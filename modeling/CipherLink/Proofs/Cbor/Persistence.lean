import CipherLink.Proofs.Cbor.Steps
import Mathlib.Tactic.SplitIfs

/-!
# Answers that persist

No reader looks at more bytes than it needs, and only the end of the bytes makes it say that
they end too early. So what it answers to some bytes, it answers to these bytes with more
behind them as well, which it then leaves; unless they ended inside an item.
-/

namespace CipherLink.Cbor

/-- How a reader may answer to more bytes once it has answered to fewer: anything if those
ended inside an item, and else as it did, with `widen` done to its value. -/
inductive Persists {β : Type} (widen : β → β) : Except Fault β → Except Fault β → Prop where
  | cut (answer : Except Fault β) : Persists widen (.error .io) answer
  | fault (f : Fault) : Persists widen (.error f) (.error f)
  | value (b : β) : Persists widen (.ok b) (.ok (widen b))

def before {α : Type} (more : Bytes) (taken : α × Bytes) : α × Bytes :=
  (taken.1, taken.2 ++ more)

section

variable {α β γ δ : Type} {u : β → β} {v : γ → γ}

theorem Persists.eq_of_ne {x y : Except Fault β} (h : Persists u x y) (hio : x ≠ .error .io) :
    y = x.map u := by
  cases h with
  | cut => exact absurd rfl hio
  | fault => rfl
  | value => rfl

theorem Persists.bind {x y : Except Fault β} {k l : β → Except Fault γ} (h : Persists u x y)
    (hk : ∀ b, x = .ok b → Persists v (k b) (l (u b))) : Persists v (x >>= k) (y >>= l) := by
  cases h with
  | cut => exact .cut _
  | fault f => exact .fault f
  | value b => exact hk b rfl

theorem persists_bind {x : Except Fault δ} {k l : δ → Except Fault γ}
    (hk : ∀ d, x = .ok d → Persists v (k d) (l d)) : Persists v (x >>= k) (x >>= l) := by
  cases x with
  | error f => exact .fault f
  | ok d => exact hk d rfl

end

variable (more : Bytes)

namespace Header

theorem persists_readArgument (minor : Nat) (bs : Bytes) :
    Persists (before more) (readArgument minor bs) (readArgument minor (bs ++ more)) := by
  unfold readArgument
  dsimp only
  split_ifs
  all_goals
    first
    | exact .value _
    | exact .fault _
    | -- the bytes of a wide argument are all there, or they end first
      split
      · next hsplit =>
        rw [Bytes.split?_append_right hsplit more]
        exact .value _
      · exact .cut _

theorem persists_read (bs : Bytes) : Persists (before more) (read bs) (read (bs ++ more)) := by
  cases bs with
  | nil => exact .cut _
  | cons b bs =>
    refine (persists_readArgument more _ bs).bind fun (argument, rest) _ => ?_
    exact persists_bind fun header _ => .value (header, rest)

end Header

theorem Persists.continuation {β : Type} {u : β → β} {left : Option Nat} {bs : Bytes}
    {finish : Bytes → Except Fault β} {go go' : Option Nat → Except Fault β}
    (hfinish : ∀ rest, Persists u (finish rest) (finish (rest ++ more)))
    (hgo : ∀ others, Persists u (go others) (go' others))
    (hcut : Header.read bs = .error .io → ∀ others, go others = .error .io) :
    Persists u
      (match Header.continuation left bs with
        | .finished rest => finish rest
        | .element others => go others)
      (match Header.continuation left (bs ++ more) with
        | .finished rest => finish rest
        | .element others => go' others) := by
  rcases left with _ | _ | n
  · have hread := Header.persists_read more bs
    unfold Header.continuation
    dsimp only
    rcases hshort : Header.read bs with f | ⟨header, rest⟩
    · by_cases hf : f = .io
      · subst hf
        dsimp only
        rw [hcut hshort none]
        exact .cut _
      · rw [hread.eq_of_ne (by simpa [hshort] using hf), hshort]
        exact hgo none
    · rw [hread.eq_of_ne (by simp [hshort]), hshort]
      cases header with
      | stop => exact hfinish rest
      | _ => exact hgo none
  · exact hfinish bs
  · exact hgo (some n)

theorem persists_readPastTags (bs : Bytes) :
    Persists (before more) (readPastTags bs) (readPastTags (bs ++ more)) := by
  induction hn : bs.length using Nat.strongRecOn generalizing bs with
  | ind n ih =>
    rw [readPastTags_eq, readPastTags_eq (bs ++ more)]
    refine (Header.persists_read more bs).bind fun (header, rest) hread => ?_
    cases header with
    | tag t => exact ih _ (hn ▸ Header.read_length hread) rest rfl
    | _ => exact .value _

theorem persists_readOctets (gathered : Bytes) (left : Nat) (bs : Bytes) :
    Persists (before more) (readOctets gathered left bs) (readOctets gathered left (bs ++ more)) := by
  rcases hsplit : bs.split? left with _ | ⟨content, rest⟩
  · simp only [readOctets, hsplit]
    exact .cut _
  · simp only [readOctets, hsplit, Bytes.split?_append_right hsplit more]
    exact .value _

theorem persists_readText (gathered : String) (left : Nat) (held bs : Bytes) :
    Persists (before more) (readText gathered left held bs)
      (readText gathered left held (bs ++ more)) := by
  fun_induction readText gathered left held bs with
  | case1 gathered held bs hheld =>
    rw [readText.eq_def _ _ _ (_ ++ more), if_pos rfl, if_pos hheld]
    exact .value _
  | case2 gathered held bs hheld =>
    rw [readText.eq_def _ _ _ (_ ++ more), if_pos rfl, if_neg hheld]
    exact .fault _
  | case3 => exact .cut _
  | case4 gathered left held bs hleft content rest hsplit htext =>
    rw [readText.eq_def _ _ _ (_ ++ more), if_neg hleft]
    simp only [Bytes.split?_append_right hsplit more, htext]
    exact .fault _
  | case5 gathered left held bs hleft content rest hsplit text unfinished htext ih =>
    rw [readText.eq_def _ _ _ (_ ++ more), if_neg hleft]
    simp only [Bytes.split?_append_right hsplit more, htext]
    exact ih

theorem persists_readDigits (gathered : Bytes) (left : Nat) (bs : Bytes) :
    Persists (before more) (readDigits gathered left bs) (readDigits gathered left (bs ++ more)) := by
  fun_induction readDigits gathered left bs with
  | case1 gathered bs =>
    rw [readDigits.eq_def _ _ (_ ++ more), if_pos rfl]
    exact .value _
  | case2 => exact .cut _
  | case3 gathered left bs hleft content rest hsplit digits hfew ih =>
    rw [readDigits.eq_def _ _ (_ ++ more), if_neg hleft]
    simp only [Bytes.split?_append_right hsplit more]
    rw [if_pos hfew]
    exact ih
  | case4 gathered left bs hleft content rest hsplit digits hmany =>
    rw [readDigits.eq_def _ _ (_ ++ more), if_neg hleft]
    simp only [Bytes.split?_append_right hsplit more]
    rw [if_neg hmany]
    exact .fault _

namespace Segments

def Persistent {α : Type} (kind : Segments α) : Prop :=
  ∀ more gathered length bs, Persists (before more) (kind.content gathered length bs)
    (kind.content gathered length (bs ++ more))

theorem persistent_octets : octets.Persistent := persists_readOctets

theorem persistent_text : text.Persistent := fun more gathered length =>
  persists_readText more gathered length []

theorem persistent_digits : digits.Persistent := persists_readDigits

variable {α : Type} {kind : Segments α}

theorem Persistent.readRest (h : kind.Persistent) (depth : Nat) (gathered : α) (bs : Bytes) :
    Persists (before more) (kind.readRest depth gathered bs)
      (kind.readRest depth gathered (bs ++ more)) := by
  induction hn : bs.length using Nat.strongRecOn generalizing bs depth gathered with
  | ind n ih =>
    rw [readRest_eq, readRest_eq _ _ _ (bs ++ more)]
    refine (Header.persists_read more bs).bind fun (header, rest) hread => ?_
    have hlength := Header.read_length hread
    by_cases hstop : header = .stop
    · subst hstop
      cases depth with
      | zero => exact .value _
      | succ outer => exact ih _ (hn ▸ hlength) outer gathered rest rfl
    · rcases hcount : kind.lengthOf header with _ | _ | length
      · simp only [before, hcount]
        exact .fault _
      · simp only [before, hcount]
        exact ih _ (hn ▸ hlength) (depth + 1) gathered rest rfl
      · simp only [before, hcount]
        refine (h more gathered length rest).bind fun (gathered, rest') hcontent => ?_
        have hshorter := kind.content_length hcontent
        exact ih _ (by omega) depth gathered rest' rfl

theorem Persistent.read (h : kind.Persistent) (empty : α) (length : Option Nat) (bs : Bytes) :
    Persists (before more) (kind.read empty length bs) (kind.read empty length (bs ++ more)) := by
  cases length with
  | none => exact h.readRest more 0 empty bs
  | some length => exact h more empty length bs

end Segments

theorem persists_readBignum (bs : Bytes) :
    Persists (before more) (readBignum bs) (readBignum (bs ++ more)) := by
  rw [readBignum_eq, readBignum_eq (bs ++ more)]
  refine (Header.persists_read more bs).bind fun (header, rest) _ => ?_
  cases header with
  | bytes length =>
    refine (Segments.persistent_digits.read more [] length rest).bind fun (digits, rest) _ => ?_
    exact .value _
  | _ => exact .fault _

theorem persists_readInteger (bs : Bytes) :
    Persists (before more) (readInteger bs) (readInteger (bs ++ more)) := by
  induction hn : bs.length using Nat.strongRecOn generalizing bs with
  | ind n ih =>
    rw [readInteger_eq, readInteger_eq (bs ++ more)]
    refine (Header.persists_read more bs).bind fun (header, rest) hread => ?_
    cases header with
    | positive n => exact .value _
    | negative n => exact .value _
    | tag t =>
      dsimp only [before]
      split_ifs
      · exact (persists_readBignum more rest).bind fun (n, rest) _ => .value _
      · exact ih _ (hn ▸ Header.read_length hread) rest rfl
    | _ => exact .fault _

theorem persists_readIntegerIn (low high : Int) (bs : Bytes) :
    Persists (before more) (readIntegerIn low high bs) (readIntegerIn low high (bs ++ more)) := by
  rw [readIntegerIn_eq, readIntegerIn_eq _ _ (bs ++ more)]
  refine (persists_readInteger more bs).bind fun (n, rest) _ => ?_
  dsimp only [before]
  split_ifs
  · exact .value _
  · exact .fault _

theorem readPastTags_cut {bs : Bytes} (h : Header.read bs = .error .io) :
    readPastTags bs = .error .io := by
  rw [readPastTags_eq, h]
  rfl

theorem readIntegerIn_cut {low high : Int} {bs : Bytes} (h : Header.read bs = .error .io) :
    readIntegerIn low high bs = .error .io := by
  rw [readIntegerIn_eq, readInteger_eq, h]
  rfl

theorem readName_cut {bs : Bytes} (h : Header.read bs = .error .io) :
    readName bs = .error .io := by
  rw [readName_eq, readPastTags_cut h]
  rfl

theorem persists_readOctetArray (left : Option Nat) (bs : Bytes) :
    Persists (before more) (readOctetArray left bs) (readOctetArray left (bs ++ more)) := by
  induction hn : bs.length using Nat.strongRecOn generalizing bs left with
  | ind n ih =>
    rw [readOctetArray_eq, readOctetArray_eq _ (bs ++ more)]
    refine Persists.continuation more (fun rest => .value _) (fun others => ?_) ?_
    · refine (persists_readIntegerIn more 0 255 bs).bind fun (n, rest) hread => ?_
      refine (ih _ (hn ▸ readIntegerIn_length hread) others rest rfl).bind fun (_, rest) _ => ?_
      exact .value _
    · intro hcut others
      rw [readIntegerIn_cut hcut]
      rfl

theorem persists_readOctetString (bs : Bytes) :
    Persists (before more) (readOctetString bs) (readOctetString (bs ++ more)) := by
  rw [readOctetString_eq, readOctetString_eq (bs ++ more)]
  refine (persists_readPastTags more bs).bind fun (header, rest) _ => ?_
  cases header with
  | bytes length => exact Segments.persistent_octets.read more [] length rest
  | array length => exact persists_readOctetArray more length rest
  | _ => exact .fault _

theorem persists_readFixed (length : Nat) (bs : Bytes) :
    Persists (before more) (readFixed length bs) (readFixed length (bs ++ more)) := by
  rw [readFixed_eq, readFixed_eq _ (bs ++ more)]
  refine (persists_readPastTags more bs).bind fun (header, rest) _ => ?_
  rcases header with _ | _ | (_ | n) | _ | _ | _ | _ | _ | _ | _ <;> try exact .fault _
  dsimp only [before]
  split_ifs
  · exact .fault _
  · exact (persists_readOctets more [] n rest).bind fun (content, rest) _ => .value _
  · exact (persists_readOctets more [] n rest).bind fun (content, rest) _ => .fault _

theorem persists_readTextItem (bs : Bytes) :
    Persists (before more) (readTextItem bs) (readTextItem (bs ++ more)) := by
  rw [readTextItem_eq, readTextItem_eq (bs ++ more)]
  refine (persists_readPastTags more bs).bind fun (header, rest) _ => ?_
  cases header with
  | text length => exact Segments.persistent_text.read more "" length rest
  | _ => exact .fault _

theorem persists_asValue {α : Type} {make : α → Value} {x y : Except Fault (α × Bytes)}
    (h : Persists (before more) x y) :
    Persists (before more) (asValue make x) (asValue make y) := by
  rw [asValue_eq, asValue_eq]
  exact h.bind fun (a, rest) _ => .value _

theorem Kind.persists_read (kind : Kind) (bs : Bytes) :
    Persists (before more) (kind.read bs) (kind.read (bs ++ more)) := by
  cases kind with
  | integer low high => exact persists_asValue more (persists_readIntegerIn more low high bs)
  | octets => exact persists_asValue more (persists_readOctetString more bs)
  | fixed length => exact persists_asValue more (persists_readFixed more length bs)
  | text => exact persists_asValue more (persists_readTextItem more bs)

theorem Kind.persists_readOptional (kind : Kind) (bs : Bytes) :
    Persists (before more) (kind.readOptional bs) (kind.readOptional (bs ++ more)) := by
  rw [readOptional_eq, readOptional_eq _ (bs ++ more)]
  refine (Header.persists_read more bs).bind fun (header, rest) _ => ?_
  dsimp only [before]
  split_ifs
  · exact .value _
  · exact kind.persists_read more bs

theorem Field.persists_read (field : Field) (bs : Bytes) :
    Persists (before more) (field.read bs) (field.read (bs ++ more)) := by
  unfold read
  split_ifs
  · exact field.kind.persists_readOptional more bs
  · exact field.kind.persists_read more bs

theorem persists_skipHeader (stack : List Open) (header : Header) (bs : Bytes) :
    Persists (before more) (skipHeader stack header bs) (skipHeader stack header (bs ++ more)) := by
  have hopened (inner : Open) : Persists (before more)
      (nest inner stack >>= fun stack => .ok (stack, bs))
      (nest inner stack >>= fun stack => .ok (stack, bs ++ more)) :=
    persists_bind fun stack _ => .value (stack, bs)
  rw [skipHeader_eq, skipHeader_eq _ _ (bs ++ more)]
  cases header with
  | positive n => exact .value _
  | negative n => exact .value _
  | bytes length =>
    exact (Segments.persistent_octets.read more [] length bs).bind fun (_, rest) _ => .value _
  | text length =>
    exact (Segments.persistent_text.read more "" length bs).bind fun (_, rest) _ => .value _
  | array length => exact hopened _
  | map length => exact hopened _
  | tag t =>
    refine (Header.persists_read more bs).bind fun (content, _) _ => ?_
    dsimp only [before]
    split_ifs
    · refine (persists_readBignum more bs).bind fun (n, rest) _ => ?_
      rw [before]
      by_cases hrange : t = negativeBignumTag ∧ 1 <<< 127 ≤ n
      · rw [if_pos hrange, if_pos hrange]
        exact .fault _
      · rw [if_neg hrange, if_neg hrange]
        exact .value _
    · exact hopened _
  | simple n =>
    dsimp only
    split_ifs
    · exact .value _
    · exact .fault _
  | float => exact .value _
  | stop => exact .fault _

theorem persists_skipOpen (stack : List Open) (bs : Bytes) :
    Persists (· ++ more) (skipOpen stack bs) (skipOpen stack (bs ++ more)) := by
  -- By induction on the length of the bytes, and where nothing is read on the height of the
  -- stack.
  induction hn : bs.length using Nat.strongRecOn generalizing bs stack with
  | ind n ih =>
    induction stack with
    | nil =>
      rw [skipOpen, skipOpen]
      exact .value bs
    | cons top stack ihStack =>
      by_cases htop : top = .items 0
      · subst htop
        rw [skipOpen, skipOpen]
        exact ihStack
      · rw [skipOpen_eq htop, skipOpen_eq htop stack (bs ++ more)]
        refine (Header.persists_read more bs).bind ?_
        rintro ⟨header, rest⟩ hread
        have hlength := Header.read_length hread
        dsimp only [before]
        split_ifs
        · exact ih _ (hn ▸ hlength) stack rest rfl
        · refine (persists_skipHeader more _ header rest).bind ?_
          rintro ⟨stack, rest'⟩ hheader
          have hshorter := skipHeader_length hheader
          exact ih _ (by omega) stack rest' rfl

theorem persists_readName (bs : Bytes) :
    Persists (before more) (readName bs) (readName (bs ++ more)) := by
  rw [readName_eq, readName_eq (bs ++ more)]
  refine (persists_readPastTags more bs).bind fun (header, rest) _ => ?_
  rcases header with _ | _ | (_ | n) | (_ | n) | _ | _ | _ | _ | _ | _ <;> try exact .fault _
  · dsimp only [before]
    split_ifs
    · exact .fault _
    · exact persists_readOctets more [] n rest
  · dsimp only [before]
    split_ifs
    · exact .fault _
    · refine (persists_readOctets more [] n rest).bind fun (name, rest) _ => ?_
      rw [before]
      by_cases hutf8 : name.utf8?.isSome = true
      · rw [if_pos hutf8, if_pos hutf8]
        exact .value _
      · rw [if_neg hutf8, if_neg hutf8]
        exact .fault _

namespace Schema

variable (schema : Schema)

theorem persists_readField (slots : Slots) (name bs : Bytes) :
    Persists (before more) (schema.readField slots name bs)
      (schema.readField slots name (bs ++ more)) := by
  rw [readField_eq, readField_eq _ _ _ (bs ++ more)]
  rcases schema.findIdx? _ with _ | i
  · exact (persists_skipOpen more [.items 1] bs).bind fun rest _ => .value _
  · dsimp only
    rcases schema[i]? with _ | field
    · exact .fault _
    · rcases slots[i]? with _ | _ | value
      · exact .fault _
      · exact (field.persists_read more bs).bind fun (value, rest) _ => .value _
      · exact .fault _

theorem persists_readEntries (left : Option Nat) (slots : Slots) (bs : Bytes) :
    Persists (before more) (schema.readEntries left slots bs)
      (schema.readEntries left slots (bs ++ more)) := by
  induction hn : bs.length using Nat.strongRecOn generalizing bs left slots with
  | ind n ih =>
    rw [readEntries_eq, readEntries_eq _ _ _ (bs ++ more)]
    refine Persists.continuation more (fun rest => .value _) (fun others => ?_) ?_
    · refine (persists_readName more bs).bind fun (name, rest) hname => ?_
      refine (schema.persists_readField more slots name rest).bind fun (slots, rest') hfield => ?_
      have hlength := readName_length hname
      have hshorter := readField_length schema hfield
      exact ih _ (by omega) others slots rest' rfl
    · intro hcut others
      rw [readName_cut hcut]
      rfl

theorem persists_read (bs : Bytes) :
    Persists (before more) (schema.read bs) (schema.read (bs ++ more)) := by
  rw [read_eq, read_eq _ (bs ++ more)]
  refine (persists_readPastTags more bs).bind fun (header, rest) _ => ?_
  cases header with
  | map length =>
    refine (schema.persists_readEntries more length _ rest).bind fun (slots, rest) _ => ?_
    exact persists_bind fun values _ => .value _
  | _ => exact .fault _

end Schema

end CipherLink.Cbor
