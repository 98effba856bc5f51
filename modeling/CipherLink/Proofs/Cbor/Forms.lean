import CipherLink.Proofs.Cbor.Items
import CipherLink.Proofs.Cbor.Steps
import Mathlib.Algebra.Order.Ring.Nat
import Mathlib.Logic.Function.Iterate

/-!
# Well-formed items

The bytes of items, told apart from how they are read: headers in every width, strings in one
piece or in several, arrays and maps with a count in front or a break behind. An item of any
form is passed over up to its end, as deep as the limit lets it nest.
-/

namespace CipherLink.Cbor

inductive HeaderForm (major n : Nat) : Bytes → Prop where
  | short (hn : n < 24) : HeaderForm major n [UInt8.ofNat (major * 32 + n)]
  | wide (minor width : Nat) (hwidth : (minor, width) ∈ [(24, 1), (25, 2), (26, 4), (27, 8)])
      (hn : n < 256 ^ width) :
      HeaderForm major n (UInt8.ofNat (major * 32 + minor) :: Bytes.ofNat width n)

/-- What stands in front of the `n` elements of an array or map, and behind them. -/
inductive Bracket (major n : Nat) : Bytes → Bytes → Prop where
  | counted {head : Bytes} (h : HeaderForm major n head) : Bracket major n head []
  | endless : Bracket major n [UInt8.ofNat (major * 32 + 31)] [0xff]

inductive Pieces (major : Nat) : List Bytes → Bytes → Prop where
  | nil : Pieces major [] []
  | cons {content head more : Bytes} {contents : List Bytes}
      (h : HeaderForm major content.length head) (hmore : Pieces major contents more) :
      Pieces major (content :: contents) (head ++ content ++ more)

inductive StringForm (major : Nat) : List Bytes → Bytes → Prop where
  | whole {content head : Bytes} (h : HeaderForm major content.length head) :
      StringForm major [content] (head ++ content)
  | pieces {contents : List Bytes} {body : Bytes} (h : Pieces major contents body) :
      StringForm major contents ([UInt8.ofNat (major * 32 + 31)] ++ body ++ [0xff])

inductive IntegerForm : Int → Bytes → Prop where
  | positive {n : Nat} {head : Bytes} (h : HeaderForm 0 n head) : IntegerForm n head
  | negative {n : Nat} {head : Bytes} (h : HeaderForm 1 n head) : IntegerForm (Int.negSucc n) head

inductive Leaf : Bytes → Prop where
  | integer {n : Int} {bs : Bytes} (h : IntegerForm n bs) : Leaf bs
  | constant (b : UInt8) (hb : b ∈ [0xf4, 0xf5, 0xf6]) : Leaf [b]
  | octets {contents : List Bytes} {bs : Bytes} (h : StringForm 2 contents bs) : Leaf bs
  | text {texts : List String} {bs : Bytes} (h : StringForm 3 (texts.map Bytes.ofString) bs) :
      Leaf bs

/-- A number of items, one after another, with at most `depth` arrays and maps open at once. -/
inductive Items : Nat → Nat → Bytes → Prop where
  | nil (depth : Nat) : Items depth 0 []
  | leaf {depth count : Nat} {bs more : Bytes} (h : Leaf bs) (hmore : Items depth count more) :
      Items depth (count + 1) (bs ++ more)
  | array {depth n count : Nat} {opening body closing more : Bytes}
      (h : Bracket 4 n opening closing) (hbody : Items depth n body)
      (hmore : Items (depth + 1) count more) :
      Items (depth + 1) (count + 1) (opening ++ body ++ closing ++ more)
  | map {depth n count : Nat} {opening body closing more : Bytes}
      (h : Bracket 5 n opening closing) (hbody : Items depth (2 * n) body)
      (hmore : Items (depth + 1) count more) :
      Items (depth + 1) (count + 1) (opening ++ body ++ closing ++ more)

theorem HeaderForm.read {major n : Nat} {head : Bytes} {header : Header}
    (h : HeaderForm major n head) (hmajor : major < 8)
    (hparts : ∀ minor, Header.ofParts major minor (some n) = .ok header) (rest : Bytes) :
    Header.read (head ++ rest) = .ok (header, rest) := by
  cases h with
  | short hn =>
    exact Header.read_lead hmajor (by omega) (by simp [Header.readArgument, hn]) (hparts _)
  | wide minor width hwidth hn =>
    have hargument : Header.readArgument minor (Bytes.ofNat width n ++ rest) =
        .ok (some n, rest) := by
      simp only [List.mem_cons, Prod.mk.injEq, List.not_mem_nil, or_false] at hwidth
      rcases hwidth with ⟨rfl, rfl⟩ | ⟨rfl, rfl⟩ | ⟨rfl, rfl⟩ | ⟨rfl, rfl⟩ <;>
        simp [Header.readArgument, Header.split?_ofNat, Bytes.toNat_ofNat hn]
    have hminor : minor < 32 := by
      simp only [List.mem_cons, Prod.mk.injEq, List.not_mem_nil, or_false] at hwidth
      omega
    exact Header.read_lead hmajor hminor hargument (hparts _)

theorem headerForm_writeArgument {n : Nat} (major : Nat) (hn : n < UInt64.size) :
    HeaderForm major n (Header.writeArgument major n) := by
  unfold Header.writeArgument
  split_ifs with h24 h8 h16 h32
  · exact .short h24
  · exact .wide 24 1 (by simp) h8
  · exact .wide 25 2 (by simp) h16
  · exact .wide 26 4 (by simp) h32
  · exact .wide 27 8 (by simp) hn

/-- How many elements a reader still expects that has `n` elements to come in front of a
closing. -/
inductive Ending (n : Nat) : Option Nat → Bytes → Prop where
  | counted : Ending n (some n) []
  | endless : Ending n none [0xff]

theorem Bracket.read_array {n : Nat} {opening closing : Bytes} (h : Bracket 4 n opening closing) :
    ∃ left, Ending n left closing ∧
      ∀ rest, Header.read (opening ++ rest) = .ok (.array left, rest) := by
  cases h with
  | counted h => exact ⟨some n, .counted, h.read (by decide) fun _ => rfl⟩
  | endless => exact ⟨none, .endless, fun rest => rfl⟩

theorem Bracket.read_map {n : Nat} {opening closing : Bytes} (h : Bracket 5 n opening closing) :
    ∃ left, Ending n left closing ∧
      ∀ rest, Header.read (opening ++ rest) = .ok (.map left, rest) := by
  cases h with
  | counted h => exact ⟨some n, .counted, h.read (by decide) fun _ => rfl⟩
  | endless => exact ⟨none, .endless, fun rest => rfl⟩

theorem Header.read_break (rest : Bytes) : Header.read (0xff :: rest) = .ok (.stop, rest) := rfl

theorem Ending.finished {left : Option Nat} {closing : Bytes} (h : Ending 0 left closing)
    (rest : Bytes) : Header.continuation left (closing ++ rest) = .finished rest := by
  cases h with
  | counted => rfl
  | endless => simp [Header.continuation, Header.read_break]

theorem Ending.element {n : Nat} {left : Option Nat} {closing bs behind : Bytes} {header : Header}
    (h : Ending (n + 1) left closing) (hread : Header.read bs = .ok (header, behind))
    (hstop : header ≠ .stop) :
    ∃ others, Ending n others closing ∧ Header.continuation left bs = .element others := by
  cases h with
  | counted => exact ⟨some n, .counted, rfl⟩
  | endless =>
    refine ⟨none, .endless, ?_⟩
    simp only [Header.continuation, hread]
    cases header <;> first | rfl | exact absurd rfl hstop

theorem Segments.readRest_segment {α : Type} {kind : Segments α} {depth length : Nat}
    {gathered a : α} {bs rest rest' : Bytes} {header : Header}
    (hread : Header.read bs = .ok (header, rest)) (hstop : header ≠ .stop)
    (hlength : kind.lengthOf header = some (some length))
    (hcontent : kind.content gathered length rest = .ok (a, rest')) :
    kind.readRest depth gathered bs = kind.readRest depth a rest' := by
  rw [readRest_eq, hread]
  simp only [bind, Except.bind, hlength, hcontent]

theorem Segments.readRest_break {α : Type} (kind : Segments α) (gathered : α) (rest : Bytes) :
    kind.readRest 0 gathered (0xff :: rest) = .ok (gathered, rest) := by
  rw [readRest_eq, Header.read_break]
  rfl

theorem readRest_octets {contents : List Bytes} {body : Bytes} (h : Pieces 2 contents body)
    (gathered rest : Bytes) : Segments.octets.readRest 0 gathered (body ++ 0xff :: rest) =
      .ok (gathered ++ contents.flatten, rest) := by
  induction h generalizing gathered with
  | nil => simpa using Segments.octets.readRest_break gathered rest
  | @cons content head more contents h _ ih =>
    have hread : Header.read (head ++ (content ++ (more ++ 0xff :: rest))) =
        .ok (.bytes (some content.length), content ++ (more ++ 0xff :: rest)) :=
      h.read (by decide) (fun _ => rfl) _
    have hcontent := readOctets_append gathered content (more ++ 0xff :: rest)
    simp only [List.append_assoc]
    rw [Segments.readRest_segment hread (by simp) rfl hcontent, ih, List.flatten_cons,
      List.append_assoc]

theorem readText_append (gathered text : String) (rest : Bytes) :
    readText gathered (Bytes.ofString text).length [] (Bytes.ofString text ++ rest) =
      .ok (gathered ++ text, rest) :=
  readText_ofString gathered rest (List.nil_append _) (by simp) fun _ => rfl

theorem readRest_text {texts : List String} {body : Bytes}
    (h : Pieces 3 (texts.map Bytes.ofString) body) (gathered : String) (rest : Bytes) :
    Segments.text.readRest 0 gathered (body ++ 0xff :: rest) =
      .ok (texts.foldl (· ++ ·) gathered, rest) := by
  induction texts generalizing gathered body with
  | nil =>
    cases h
    exact Segments.text.readRest_break gathered rest
  | cons text texts ih =>
    obtain _ | @⟨_, head, more, _, h, hmore⟩ := h
    have hread : Header.read (head ++ (Bytes.ofString text ++ (more ++ 0xff :: rest))) =
        .ok (.text (some (Bytes.ofString text).length),
          Bytes.ofString text ++ (more ++ 0xff :: rest)) :=
      h.read (by decide) (fun _ => rfl) _
    have hcontent := readText_append gathered text (more ++ 0xff :: rest)
    simp only [List.append_assoc]
    rw [Segments.readRest_segment hread (by simp) rfl hcontent, ih hmore, List.foldl_cons]

theorem StringForm.read_octets {contents : List Bytes} {bs : Bytes} (h : StringForm 2 contents bs)
    (rest : Bytes) : ∃ length behind, Header.read (bs ++ rest) = .ok (.bytes length, behind) ∧
      Segments.octets.read [] length behind = .ok (contents.flatten, rest) := by
  cases h with
  | @whole content head h =>
    refine ⟨some content.length, content ++ rest, ?_, ?_⟩
    · rw [List.append_assoc]
      exact h.read (by decide) (fun _ => rfl) _
    · have hcontent := readOctets_append [] content rest
      simpa [Segments.read, Segments.octets] using hcontent
  | @pieces contents body h =>
    refine ⟨none, body ++ 0xff :: rest, ?_, readRest_octets h [] rest⟩
    rw [List.append_assoc, List.append_assoc]
    rfl

theorem StringForm.read_text {texts : List String} {bs : Bytes}
    (h : StringForm 3 (texts.map Bytes.ofString) bs) (rest : Bytes) :
    ∃ length behind, Header.read (bs ++ rest) = .ok (.text length, behind) ∧
      Segments.text.read "" length behind = .ok (String.join texts, rest) := by
  generalize hcontents : texts.map Bytes.ofString = contents at h
  cases h with
  | @whole content head h =>
    obtain ⟨text, rfl, rfl⟩ := List.map_eq_singleton_iff.mp hcontents
    refine ⟨some (Bytes.ofString text).length, Bytes.ofString text ++ rest, ?_, ?_⟩
    · rw [List.append_assoc]
      exact h.read (by decide) (fun _ => rfl) _
    · exact readText_append "" text rest
  | @pieces contents body h =>
    subst hcontents
    refine ⟨none, body ++ 0xff :: rest, ?_, readRest_text h "" rest⟩
    rw [List.append_assoc, List.append_assoc]
    rfl

theorem IntegerForm.readInteger {n : Int} {bs : Bytes} (h : IntegerForm n bs) (rest : Bytes) :
    readInteger (bs ++ rest) = .ok (n, rest) := by
  cases h with
  | positive h => exact readInteger_of_positive (h.read (by decide) (fun _ => rfl) rest)
  | negative h => exact readInteger_of_negative (h.read (by decide) (fun _ => rfl) rest)

theorem IntegerForm.read {n low high : Int} {bs : Bytes} (h : IntegerForm n bs) (hlow : low ≤ n)
    (hhigh : n ≤ high) (rest : Bytes) :
    (Kind.integer low high).read (bs ++ rest) = .ok (.integer n, rest) := by
  simp [Kind.read, readIntegerIn, h.readInteger, hlow, hhigh, asValue]

theorem StringForm.read {contents : List Bytes} {bs : Bytes} (h : StringForm 2 contents bs)
    (rest : Bytes) : Kind.octets.read (bs ++ rest) = .ok (.octets contents.flatten, rest) := by
  obtain ⟨length, behind, hread, hcontent⟩ := h.read_octets rest
  simp [Kind.read, readOctetString, readPastTags_of_read hread, hcontent, asValue]

theorem HeaderForm.read_fixed {content head : Bytes} (h : HeaderForm 2 content.length head)
    (hwindow : content.length ≤ windowSize) (name : String) (rest : Bytes) :
    (⟨name, .fixed content.length, true⟩ : Field).read (head ++ content ++ rest) =
      .ok (.octets content, rest) := by
  have hread : Header.read (head ++ (content ++ rest)) =
      .ok (.bytes (some content.length), content ++ rest) := h.read (by decide) (fun _ => rfl) _
  simp [Field.read, Kind.readOptional, Kind.read, readFixed, List.append_assoc, hread,
    Header.isAbsent, readPastTags_of_read hread, Nat.not_lt.mpr hwindow, readOctets_append, asValue]

inductive LeafBehind (rest : Bytes) : Header → Bytes → Prop where
  | positive (n : Nat) : LeafBehind rest (.positive n) rest
  | negative (n : Nat) : LeafBehind rest (.negative n) rest
  | constant {n : Nat} (hlow : 20 ≤ n) (hhigh : n ≤ 22) : LeafBehind rest (.simple n) rest
  | octets {length : Option Nat} {content behind : Bytes}
      (h : Segments.octets.read [] length behind = .ok (content, rest)) :
      LeafBehind rest (.bytes length) behind
  | text {length : Option Nat} {content : String} {behind : Bytes}
      (h : Segments.text.read "" length behind = .ok (content, rest)) :
      LeafBehind rest (.text length) behind

theorem Leaf.read {bs : Bytes} (h : Leaf bs) (rest : Bytes) :
    ∃ header behind, Header.read (bs ++ rest) = .ok (header, behind) ∧
      LeafBehind rest header behind := by
  cases h with
  | integer h =>
    cases h with
    | @positive n head h => exact ⟨_, _, h.read (by decide) (fun _ => rfl) rest, .positive n⟩
    | @negative n head h => exact ⟨_, _, h.read (by decide) (fun _ => rfl) rest, .negative n⟩
  | constant b hb =>
    simp only [List.mem_cons, List.not_mem_nil, or_false] at hb
    rcases hb with rfl | rfl | rfl
    · exact ⟨.simple 20, rest, rfl, .constant (by decide) (by decide)⟩
    · exact ⟨.simple 21, rest, rfl, .constant (by decide) (by decide)⟩
    · exact ⟨.simple 22, rest, rfl, .constant (by decide) (by decide)⟩
  | octets h =>
    obtain ⟨length, behind, hread, hcontent⟩ := h.read_octets rest
    exact ⟨_, _, hread, .octets hcontent⟩
  | text h =>
    obtain ⟨length, behind, hread, hcontent⟩ := h.read_text rest
    exact ⟨_, _, hread, .text hcontent⟩

theorem Leaf.items {bs : Bytes} (h : Leaf bs) (depth : Nat) : Items depth 1 bs := by
  have hitems := Items.leaf h (.nil depth)
  rwa [List.append_nil] at hitems

theorem LeafBehind.ne_stop {rest behind : Bytes} {header : Header}
    (h : LeafBehind rest header behind) : header ≠ .stop := by
  cases h <;> simp

theorem LeafBehind.skipHeader {rest behind : Bytes} {header : Header}
    (h : LeafBehind rest header behind) (stack : List Open) :
    skipHeader stack header behind = .ok (stack, rest) := by
  rw [skipHeader_eq]
  cases h with
  | positive n => rfl
  | negative n => rfl
  | constant hlow hhigh => exact if_pos ⟨hlow, by omega⟩
  | octets h => simp only [h, bind, Except.bind]
  | text h => simp only [h, bind, Except.bind]

/-- Whether so many items can come next in an open array, map or tag. -/
def Open.Takes (count : Nat) : Open → Prop
  | .items left => count ≤ left
  | .endless | .pairs _ => True

theorem Open.Takes.next {count : Nat} {top : Open} (h : top.Takes (count + 1)) :
    top.next.Takes count := by
  cases top with
  | items left => exact Nat.le_sub_one_of_lt h
  | endless => trivial
  | pairs inPair => trivial

theorem Open.Takes.ne_zero {count : Nat} {top : Open} (h : top.Takes (count + 1)) :
    top ≠ .items 0 := by
  rintro rfl
  exact absurd h (Nat.not_succ_le_zero count)

/-- Whether bytes are passed over as so many items, unless the arrays and maps that are open
around and inside them are too many. -/
def Skips (depth count : Nat) (bs : Bytes) : Prop :=
  ∀ (top : Open) (stack : List Open) (rest : Bytes), top.Takes count →
    skipOpen (top :: stack) (bs ++ rest) = skipOpen (Open.next^[count] top :: stack) rest ∨
    nestingLimit ≤ stack.length + depth ∧
      skipOpen (top :: stack) (bs ++ rest) = .error .recursionLimit

theorem Leaf.skips {depth count : Nat} {bs more : Bytes} (h : Leaf bs)
    (hmore : Skips depth count more) : Skips depth (count + 1) (bs ++ more) := by
  intro top stack rest htop
  obtain ⟨header, behind, hread, hbehind⟩ := h.read (more ++ rest)
  have hskip : skipOpen (top :: stack) (bs ++ more ++ rest) =
      skipOpen (top.next :: stack) (more ++ rest) := by
    rw [List.append_assoc, skipOpen_eq htop.ne_zero, hread]
    simp only [bind, Except.bind, hbehind.ne_stop, false_and, if_false, hbehind.skipHeader]
  rw [hskip, Function.iterate_succ_apply]
  exact hmore top.next stack rest htop.next

theorem skips_container {depth n count : Nat} {opening body closing more : Bytes} {header : Header}
    {inner : Open} (hread : ∀ rest, Header.read (opening ++ rest) = .ok (header, rest))
    (hstop : header ≠ .stop)
    (hopens : ∀ stack rest, skipHeader stack header rest =
      nest inner stack >>= fun stack => .ok (stack, rest))
    (htakes : inner.Takes n)
    (hcloses : ∀ stack rest, skipOpen (Open.next^[n] inner :: stack) (closing ++ rest) =
      skipOpen stack rest)
    (hbody : Skips depth n body) (hmore : Skips (depth + 1) count more) :
    Skips (depth + 1) (count + 1) (opening ++ body ++ closing ++ more) := by
  intro top stack rest htop
  have hopened : skipOpen (top :: stack) (opening ++ body ++ closing ++ more ++ rest) =
      nest inner (top.next :: stack) >>= fun stack =>
        skipOpen stack (body ++ (closing ++ (more ++ rest))) := by
    simp only [List.append_assoc]
    rw [skipOpen_eq htop.ne_zero, hread]
    simp only [bind, Except.bind, hstop, false_and, if_false, hopens]
    cases nest inner (top.next :: stack) <;> rfl
  rw [hopened, nest]
  split
  · have hclosed : skipOpen (Open.next^[n] inner :: top.next :: stack)
        (closing ++ (more ++ rest)) = skipOpen (top.next :: stack) (more ++ rest) := hcloses _ _
    simp only [bind, Except.bind]
    rcases hbody inner (top.next :: stack) (closing ++ (more ++ rest)) htakes with hpassed | hdeep
    · rw [hpassed, hclosed, Function.iterate_succ_apply]
      exact hmore top.next stack rest htop.next
    · refine .inr ⟨?_, hdeep.2⟩
      have hheight := hdeep.1
      rw [List.length_cons] at hheight
      omega
  · next hheight =>
    rw [List.length_cons] at hheight
    exact .inr ⟨by omega, rfl⟩

theorem skipOpen_break {top : Open} (hstop : top.mayStop = true) (stack : List Open)
    (rest : Bytes) : skipOpen (top :: stack) (0xff :: rest) = skipOpen stack rest := by
  have hne : top ≠ .items 0 := by
    rintro rfl
    simp [Open.mayStop] at hstop
  rw [skipOpen_eq hne, Header.read_break]
  simp only [bind, Except.bind, hstop, and_self, if_true]

theorem skipOpen_items (n : Nat) (stack : List Open) (rest : Bytes) :
    skipOpen (Open.next^[n] (.items n) :: stack) rest = skipOpen stack rest := by
  have hnext : ∀ n, Open.next^[n] (.items n) = .items 0 := by
    intro n
    induction n with
    | zero => rfl
    | succ n ih => rw [Function.iterate_succ_apply, Open.next, Nat.add_sub_cancel, ih]
  rw [hnext, skipOpen]

theorem Ending.closes_array {n : Nat} {left : Option Nat} {closing : Bytes}
    (h : Ending n left closing) (stack : List Open) (rest : Bytes) :
    skipOpen (Open.next^[n] (left.elim .endless .items) :: stack) (closing ++ rest) =
      skipOpen stack rest := by
  cases h with
  | counted => exact skipOpen_items n stack rest
  | endless =>
    have hnext : Open.next^[n] .endless = .endless := Function.iterate_fixed rfl n
    rw [Option.elim_none, hnext]
    exact skipOpen_break rfl stack rest

theorem Ending.closes_map {n : Nat} {left : Option Nat} {closing : Bytes}
    (h : Ending n left closing) (stack : List Open) (rest : Bytes) :
    skipOpen (Open.next^[2 * n] (left.elim (.pairs false) fun n => .items (2 * n)) :: stack)
      (closing ++ rest) = skipOpen stack rest := by
  cases h with
  | counted => exact skipOpen_items (2 * n) stack rest
  | endless =>
    have hnext : Open.next^[2 * n] (.pairs false) = .pairs false := by
      rw [Function.iterate_mul]
      exact Function.iterate_fixed rfl n
    rw [Option.elim_none, hnext]
    exact skipOpen_break rfl stack rest

theorem Ending.takes_array {n : Nat} {left : Option Nat} {closing : Bytes}
    (h : Ending n left closing) : (left.elim .endless .items : Open).Takes n := by
  cases h with
  | counted => exact Nat.le_refl n
  | endless => trivial

theorem Ending.takes_map {n : Nat} {left : Option Nat} {closing : Bytes}
    (h : Ending n left closing) :
    (left.elim (.pairs false) fun n => .items (2 * n) : Open).Takes (2 * n) := by
  cases h with
  | counted => exact Nat.le_refl _
  | endless => trivial

theorem Items.skips {depth count : Nat} {bs : Bytes} (h : Items depth count bs) :
    Skips depth count bs := by
  induction h with
  | nil depth => exact fun top stack rest _ => .inl rfl
  | leaf h _ ih => exact h.skips ih
  | array h _ _ ihBody ih =>
    obtain ⟨left, hending, hread⟩ := h.read_array
    exact skips_container hread (by simp) (fun stack rest => skipHeader_eq _ _ _)
      hending.takes_array hending.closes_array ihBody ih
  | map h _ _ ihBody ih =>
    obtain ⟨left, hending, hread⟩ := h.read_map
    exact skips_container hread (by simp) (fun stack rest => skipHeader_eq _ _ _)
      hending.takes_map hending.closes_map ihBody ih

theorem Items.skip {depth : Nat} {bs : Bytes} (h : Items depth 1 bs) (rest : Bytes) :
    skip (bs ++ rest) = .ok rest ∨
      nestingLimit ≤ depth ∧ skip (bs ++ rest) = .error .recursionLimit := by
  rcases h.skips (.items 1) [] rest (Nat.le_refl 1) with hpassed | hdeep
  · left
    rw [Cbor.skip, hpassed, skipOpen_items, skipOpen]
  · simpa [Cbor.skip] using Or.inr hdeep

end CipherLink.Cbor
