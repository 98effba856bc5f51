import CipherLink.Proofs.Cbor.Forms

/-!
# Items and what follows them

Where the reader of a field reads a well-formed item at all, it reads the whole of it and leaves
what follows. All readers start at the header of the item, so this is told by what stands behind
that header.
-/

namespace CipherLink.Cbor

theorem rest_eq_of_ok {α : Type} {a b : α} {rest rest' : Bytes}
    (h : (.ok (a, rest) : Except Fault (α × Bytes)) = .ok (b, rest')) : rest' = rest := by
  rw [Except.ok.injEq, Prod.mk.injEq] at h
  exact h.2.symm

inductive ItemBehind (rest : Bytes) : Header → Bytes → Prop where
  | leaf {header : Header} {behind : Bytes} (h : LeafBehind rest header behind) :
      ItemBehind rest header behind
  | array {depth n : Nat} {left : Option Nat} {body closing : Bytes} (h : Ending n left closing)
      (hbody : Items depth n body) : ItemBehind rest (.array left) (body ++ (closing ++ rest))
  | map (left : Option Nat) (behind : Bytes) : ItemBehind rest (.map left) behind

theorem Items.read {depth count : Nat} {bs : Bytes} (h : Items depth (count + 1) bs) :
    ∃ item more, bs = item ++ more ∧ Items depth count more ∧ ∀ rest, ∃ header behind,
      Header.read (item ++ rest) = .ok (header, behind) ∧ ItemBehind rest header behind := by
  cases h with
  | @leaf _ _ item more h hmore =>
    refine ⟨item, more, rfl, hmore, fun rest => ?_⟩
    obtain ⟨header, behind, hread, hbehind⟩ := h.read rest
    exact ⟨header, behind, hread, .leaf hbehind⟩
  | @array _ _ _ opening body closing more h hbody hmore =>
    refine ⟨opening ++ body ++ closing, more, rfl, hmore, fun rest => ?_⟩
    obtain ⟨left, hending, hread⟩ := h.read_array
    refine ⟨.array left, body ++ (closing ++ rest), ?_, .array hending hbody⟩
    rw [List.append_assoc, List.append_assoc]
    exact hread _
  | @map _ _ _ opening body closing more h hbody hmore =>
    refine ⟨opening ++ body ++ closing, more, rfl, hmore, fun rest => ?_⟩
    obtain ⟨left, hending, hread⟩ := h.read_map
    refine ⟨.map left, body ++ (closing ++ rest), ?_, .map left _⟩
    rw [List.append_assoc, List.append_assoc]
    exact hread _

namespace ItemBehind

variable {rest behind bs : Bytes} {header : Header}

theorem ne_tag (h : ItemBehind rest header behind) (t : Nat) : header ≠ .tag t := by
  rcases h with h | _ | _
  · cases h <;> simp
  · simp
  · simp

theorem ne_stop (h : ItemBehind rest header behind) : header ≠ .stop := by
  rcases h with h | _ | _
  · exact h.ne_stop
  · simp
  · simp

variable (h : ItemBehind rest header behind) (hread : Header.read bs = .ok (header, behind))
include h hread

theorem of_readIntegerIn {low high n : Int} {rest' : Bytes}
    (hok : readIntegerIn low high bs = .ok (n, rest')) : rest' = rest := by
  rw [readIntegerIn_eq, readInteger_eq, hread] at hok
  simp only [bind, Except.bind] at hok
  rcases h with h | _ | _
  · cases h with
    | positive n | negative n =>
      simp only at hok
      split_ifs at hok
      exact rest_eq_of_ok hok
    | _ => simp at hok
  · simp at hok
  · simp at hok

end ItemBehind

theorem Items.of_readOctetArray {depth n : Nat} {body : Bytes} (h : Items depth n body)
    {left : Option Nat} {closing : Bytes} (hending : Ending n left closing)
    {rest content rest' : Bytes}
    (hok : readOctetArray left (body ++ (closing ++ rest)) = .ok (content, rest')) :
    rest' = rest := by
  induction n generalizing left body content rest' with
  | zero =>
    cases h
    rw [List.nil_append, readOctetArray_eq, hending.finished] at hok
    exact rest_eq_of_ok hok
  | succ n ih =>
    obtain ⟨item, more, rfl, hmore, hitem⟩ := h.read
    obtain ⟨header, behind, hread, hbehind⟩ := hitem (more ++ (closing ++ rest))
    obtain ⟨others, hothers, hcontinues⟩ := hending.element hread hbehind.ne_stop
    rw [List.append_assoc, readOctetArray_eq, hcontinues] at hok
    obtain ⟨⟨b, tail⟩, helement, hok⟩ := bind_eq_ok hok
    obtain rfl := hbehind.of_readIntegerIn hread helement
    obtain ⟨⟨bytes, tail⟩, hcontent, hok⟩ := bind_eq_ok hok
    rw [rest_eq_of_ok hok]
    exact ih hmore hothers hcontent

namespace ItemBehind

variable {rest behind bs : Bytes} {header : Header}
variable (h : ItemBehind rest header behind) (hread : Header.read bs = .ok (header, behind))
include h hread

theorem of_readOctetString {content rest' : Bytes}
    (hok : readOctetString bs = .ok (content, rest')) : rest' = rest := by
  rw [readOctetString_eq, readPastTags_of_read hread h.ne_tag] at hok
  simp only [bind, Except.bind] at hok
  rcases h with h | ⟨hending, hbody⟩ | _
  · cases h with
    | octets h =>
      simp only [h] at hok
      exact rest_eq_of_ok hok
    | _ => simp at hok
  · exact hbody.of_readOctetArray hending hok
  · simp at hok

theorem of_readFixed {length : Nat} {content rest' : Bytes}
    (hok : readFixed length bs = .ok (content, rest')) : rest' = rest := by
  rw [readFixed_eq, readPastTags_of_read hread h.ne_tag] at hok
  simp only [bind, Except.bind] at hok
  rcases h with h | _ | _
  · cases h with
    | @octets n content behind h =>
      cases n with
      | none => simp at hok
      | some n =>
        change readOctets [] n behind = _ at h
        simp only [h] at hok
        split_ifs at hok
        exact rest_eq_of_ok hok
    | _ => simp at hok
  · simp at hok
  · simp at hok

theorem of_readTextItem {content : String} {rest' : Bytes}
    (hok : readTextItem bs = .ok (content, rest')) : rest' = rest := by
  rw [readTextItem_eq, readPastTags_of_read hread h.ne_tag] at hok
  simp only [bind, Except.bind] at hok
  rcases h with h | _ | _
  · cases h with
    | text h =>
      simp only [h] at hok
      exact rest_eq_of_ok hok
    | _ => simp at hok
  · simp at hok
  · simp at hok

theorem of_readKind {kind : Kind} {value : Value} {rest' : Bytes}
    (hok : kind.read bs = .ok (value, rest')) : rest' = rest := by
  cases kind <;> obtain ⟨_, hok, -⟩ := asValue_eq_ok hok
  · exact h.of_readIntegerIn hread hok
  · exact h.of_readOctetString hread hok
  · exact h.of_readFixed hread hok
  · exact h.of_readTextItem hread hok

theorem of_readField {field : Field} {value : Value} {rest' : Bytes}
    (hok : field.read bs = .ok (value, rest')) : rest' = rest := by
  unfold Field.read at hok
  split at hok
  · rw [Kind.readOptional_eq, hread] at hok
    simp only [bind, Except.bind] at hok
    split at hok
    · next habsent =>
      rcases h with h | _ | _
      · cases h with
        | constant hlow hhigh => exact rest_eq_of_ok hok
        | _ => simp [Header.isAbsent] at habsent
      · simp [Header.isAbsent] at habsent
      · simp [Header.isAbsent] at habsent
    · exact h.of_readKind hread hok
  · exact h.of_readKind hread hok

end ItemBehind

theorem Items.of_readField {depth : Nat} {item : Bytes} (h : Items depth 1 item) {field : Field}
    {value : Value} {rest rest' : Bytes} (hok : field.read (item ++ rest) = .ok (value, rest')) :
    rest' = rest := by
  obtain ⟨item, more, rfl, hmore, hitem⟩ := h.read
  obtain ⟨header, behind, hread, hbehind⟩ := hitem rest
  obtain _ | _ := hmore
  rw [List.append_nil] at hok
  exact hbehind.of_readField hread hok

end CipherLink.Cbor
