import CipherLink.Algorithm.Identifier
import CipherLink.Proofs.Numerals
import Mathlib

/-!
# The grammar of identifiers

The names of the algorithms are `None` in any letter case, and the name of a family in one of
its two spellings with a numeral behind it. A name is taken for the algorithm that it spells,
if that is one of a supported size, and for nothing else; the name that an algorithm is offered
under leads back to it.
-/

namespace CipherLink

namespace Identifier

theorem toLower_eq_iff {c letter : Char} (h : letter.isLower = true) :
    c.toLower = letter ↔ c = letter ∨ c = letter.toUpper := by
  have hletter : letter.toLower = letter :=
    Char.toLower_eq_of_not_isUpper (Char.not_isUpper_of_isLower h)
  constructor
  · rintro rfl
    by_cases hc : c.isUpper = true
    · rw [Char.toUpper_toLower_eq_toUpper,
        Char.toUpper_eq_of_not_isLower (Char.not_isLower_of_isUpper hc)]
      exact .inr rfl
    · exact .inl (Char.toLower_eq_of_not_isUpper hc).symm
  · rintro (rfl | rfl)
    · exact hletter
    · rw [Char.toLower_toUpper_eq_toLower, hletter]

def SpellsNone (s : String) : Prop :=
  List.Forall₂ (fun c letter => c = letter ∨ c = letter.toUpper) s.toList "none".toList

theorem isNone_iff {s : String} : isNone s = true ↔ SpellsNone s := by
  have hnone : "none".toList = ['n', 'o', 'n', 'e'] := by decide
  rw [isNone, beq_iff_eq, ← List.forall₂_eq_eq_eq, List.forall₂_map_left_iff, SpellsNone, hnone]
  simp (disch := decide) only [List.forall₂_cons_right_iff, List.forall₂_nil_right_iff,
    toLower_eq_iff]

variable {α : Type} {identity a : α} {sized : UInt32 → α} {s : String} {n : Nat} {size : UInt32}

/-- The name of a family, spelled as `upper` or as `lower`, and behind it a numeral for `n`. -/
def Names (upper lower s : String) (n : Nat) : Prop :=
  ∃ family numeral, (family = upper ∨ family = lower) ∧ s = family ++ numeral ∧
    Decimal.Spells numeral.toList n

theorem behind?_eq_some_iff {ps cs rest : List Char} :
    behind? ps cs = some rest ↔ cs = ps ++ rest := by
  induction ps generalizing cs with
  | nil => simp [behind?, eq_comm]
  | cons p ps ih =>
    cases cs with
    | nil => simp [behind?]
    | cons c cs =>
      by_cases hp : p = c
      · simp [behind?, hp, ih]
      · simp [behind?, hp, Ne.symm hp]

theorem behind?_append (family numeral : String) :
    behind? family.toList (family ++ numeral).toList = some numeral.toList :=
  behind?_eq_some_iff.mpr String.toList_append

theorem eq_append_of_behind? {family : String} {cs : List Char}
    (h : behind? family.toList s.toList = some cs) : s = family ++ String.ofList cs := by
  rw [← String.toList_inj, String.toList_append, String.toList_ofList]
  exact behind?_eq_some_iff.mp h

/-- A family of algorithms that are told apart by their sizes. It is clear from a name which
of the two spellings it begins with, and that it is not `None`. -/
structure Family where
  upper : String
  lower : String
  sizes : List UInt32
  apart : ∀ numeral numeral' : String, upper ++ numeral ≠ lower ++ numeral'
  named : ∀ numeral : String, ¬SpellsNone (upper ++ numeral) ∧ ¬SpellsNone (lower ++ numeral)

namespace Family

variable {f : Family}

theorem not_spellsNone (h : Names f.upper f.lower s n) : ¬SpellsNone s := by
  obtain ⟨family, numeral, rfl | rfl, rfl, -⟩ := h
  · exact (f.named numeral).1
  · exact (f.named numeral).2

theorem keySize?_eq_some_iff :
    keySize? f.upper f.lower s = some size ↔ Names f.upper f.lower s size.toNat := by
  constructor
  · intro h
    rw [keySize?] at h
    split at h
    · next cs hupper =>
      refine ⟨f.upper, String.ofList cs, .inl rfl, eq_append_of_behind? hupper, ?_⟩
      rw [String.toList_ofList]
      exact Decimal.word32?_eq_some_iff.mp h
    · obtain ⟨cs, hlower, hsize⟩ := Option.bind_eq_some_iff.mp h
      refine ⟨f.lower, String.ofList cs, .inr rfl, eq_append_of_behind? hlower, ?_⟩
      rw [String.toList_ofList]
      exact Decimal.word32?_eq_some_iff.mp hsize
  · rintro ⟨family, numeral, rfl | rfl, rfl, hnumeral⟩
    · rw [keySize?, behind?_append]
      exact Decimal.word32?_eq_some_iff.mpr hnumeral
    · have hupper : behind? f.upper.toList (f.lower ++ numeral).toList = none :=
        Option.eq_none_iff_forall_ne_some.mpr fun cs hcs =>
          f.apart _ _ (eq_append_of_behind? hcs).symm
      rw [keySize?, hupper, behind?_append]
      exact Decimal.word32?_eq_some_iff.mpr hnumeral

theorem names_unique {m : Nat} (h : Names f.upper f.lower s m) (h' : Names f.upper f.lower s n) :
    m = n := by
  obtain ⟨family, numeral, hfamily, rfl, hnumeral⟩ := h
  obtain ⟨family', numeral', hfamily', heq, hnumeral'⟩ := h'
  have hsame : family' = family := by
    obtain rfl | rfl := hfamily <;> obtain rfl | rfl := hfamily'
    · rfl
    · exact absurd heq (f.apart _ _)
    · exact absurd heq.symm (f.apart _ _)
    · rfl
  subst hsame
  obtain rfl := String.append_right_inj _ |>.mp heq
  exact hnumeral.unique hnumeral'

def read? (f : Family) (identity : α) (sized : UInt32 → α) (s : String) : Option α :=
  if isNone s then some identity
  else do
    let size ← keySize? f.upper f.lower s
    if f.sizes.contains size then some (sized size) else none

theorem read?_eq_some_iff : f.read? identity sized s = some a ↔
    SpellsNone s ∧ a = identity ∨
      ∃ size ∈ f.sizes, Names f.upper f.lower s size.toNat ∧ a = sized size := by
  rw [read?]
  by_cases hnone : SpellsNone s
  · have hnames (size : UInt32) : ¬Names f.upper f.lower s size.toNat :=
      fun h => not_spellsNone h hnone
    simp only [isNone_iff, hnone, if_true, true_and, hnames, false_and, and_false, exists_false,
      or_false, Option.some.injEq]
    exact eq_comm
  · simp only [isNone_iff, hnone, if_false, Option.bind_eq_bind, Option.bind_eq_some_iff,
      keySize?_eq_some_iff, List.contains_iff_mem, false_and, false_or]
    constructor
    · rintro ⟨size, hname, h⟩
      split at h
      · next hmem => exact ⟨size, hmem, hname, (Option.some.inj h).symm⟩
      · simp at h
    · rintro ⟨size, hmem, hname, rfl⟩
      exact ⟨size, hname, if_pos hmem⟩

end Family

/-- A reading of names that takes each for the algorithm that it spells, and for no other:
`None` for the identity, and a name of a family for the algorithm of its size. -/
structure Reads {α : Type} (ofIdentifier? : String → Option α) (identity : α) (sized : UInt32 → α)
    (upper lower : String) (sizes : List Nat) : Prop where
  identity_iff : ∀ s, ofIdentifier? s = some identity ↔ SpellsNone s
  sized_iff : ∀ s size, ofIdentifier? s = some (sized size) ↔
    size.toNat ∈ sizes ∧ Names upper lower s size.toNat
  none_iff : ∀ s, ofIdentifier? s = none ↔ ¬SpellsNone s ∧ ∀ n ∈ sizes, ¬Names upper lower s n
  /-- A number that no word holds is not taken for one that is left of it in a word. -/
  large : ∀ s n, UInt32.size ≤ n → Names upper lower s n → ofIdentifier? s = none

theorem Family.reads (f : Family) (hsized : Function.Injective sized)
    (hidentity : ∀ size, sized size ≠ identity) :
    Reads (f.read? identity sized) identity sized f.upper f.lower (f.sizes.map UInt32.toNat) := by
  have hmem (size : UInt32) : size.toNat ∈ f.sizes.map UInt32.toNat ↔ size ∈ f.sizes :=
    List.mem_map_of_injective fun _ _ => UInt32.toNat_inj.mp
  have hread (s : String) (size : UInt32) : f.read? identity sized s = some (sized size) ↔
      size ∈ f.sizes ∧ Names f.upper f.lower s size.toNat := by
    rw [read?_eq_some_iff]
    constructor
    · rintro (⟨-, h⟩ | ⟨size', hsize, hname, h⟩)
      · exact absurd h (hidentity size)
      · obtain rfl := hsized h
        exact ⟨hsize, hname⟩
    · exact fun ⟨hsize, hname⟩ => .inr ⟨size, hsize, hname, rfl⟩
  refine ⟨?_, ?_, ?_, ?_⟩
  · intro s
    rw [read?_eq_some_iff]
    constructor
    · rintro (⟨h, -⟩ | ⟨size, -, -, h⟩)
      · exact h
      · exact absurd h.symm (hidentity size)
    · exact fun h => .inl ⟨h, rfl⟩
  · intro s size
    rw [hmem, hread]
  · intro s
    rw [Option.eq_none_iff_forall_ne_some]
    constructor
    · intro h
      refine ⟨fun hnone => h identity (read?_eq_some_iff.mpr (.inl ⟨hnone, rfl⟩)), ?_⟩
      intro n hn hname
      obtain ⟨size, hsize, rfl⟩ := List.mem_map.mp hn
      exact h (sized size) ((hread s size).mpr ⟨hsize, hname⟩)
    · rintro ⟨hnone, hnames⟩ a ha
      obtain ⟨h, -⟩ | ⟨size, hsize, hname, -⟩ := read?_eq_some_iff.mp ha
      · exact hnone h
      · exact hnames size.toNat (List.mem_map_of_mem hsize) hname
  · intro s n hlarge hname
    rw [Option.eq_none_iff_forall_ne_some]
    intro a ha
    obtain ⟨h, -⟩ | ⟨size, -, hname', -⟩ := read?_eq_some_iff.mp ha
    · exact not_spellsNone hname h
    · exact absurd size.toNat_lt (names_unique hname hname' ▸ Nat.not_lt.mpr hlarge)

theorem Reads.printed_iff {ofIdentifier? : String → Option α} {upper lower : String}
    {sizes : List Nat} (h : Reads ofIdentifier? identity sized upper lower sizes) (size : UInt32) :
    ofIdentifier? (upper ++ toString size) = some (sized size) ↔ size.toNat ∈ sizes := by
  rw [h.sized_iff]
  exact and_iff_left
    ⟨upper, toString size, .inl rfl, rfl, Decimal.spells_toString size.toNat⟩

def rsaFamily : Family where
  upper := "RSA-"
  lower := "rsa-"
  sizes := KeyExchangeAlgorithm.namedSizes
  apart numeral numeral' := by
    rw [ne_eq, ← String.toList_inj]
    simp
  named numeral := by
    simp [SpellsNone]

def aesFamily : Family where
  upper := "AES-"
  lower := "aes-"
  sizes := SymmetricAlgorithm.namedSizes
  apart numeral numeral' := by
    rw [ne_eq, ← String.toList_inj]
    simp
  named numeral := by
    simp [SpellsNone]

theorem names_disjoint {m : Nat} (h : Names rsaFamily.upper rsaFamily.lower s m) :
    ¬Names aesFamily.upper aesFamily.lower s n := by
  rintro ⟨family', numeral', hfamily', heq, -⟩
  obtain ⟨family, numeral, hfamily, rfl, -⟩ := h
  rw [← String.toList_inj] at heq
  obtain rfl | rfl := hfamily <;> obtain rfl | rfl := hfamily' <;>
    simp [rsaFamily, aesFamily] at heq

theorem reads_keyExchange : Reads KeyExchangeAlgorithm.ofIdentifier? .identity .rsa "RSA-" "rsa-"
    [512, 1024, 2048, 4096] :=
  rsaFamily.reads (fun _ _ => KeyExchangeAlgorithm.rsa.inj) nofun

theorem reads_symmetric : Reads SymmetricAlgorithm.ofIdentifier? .identity .aes "AES-" "aes-"
    [128, 192, 256] :=
  aesFamily.reads (fun _ _ => SymmetricAlgorithm.aes.inj) nofun

theorem spellsNone_none : SpellsNone "None" :=
  isNone_iff.mp (by decide)

end Identifier

namespace KeyExchangeAlgorithm

theorem ofIdentifier?_identifier {s : String} {a : KeyExchangeAlgorithm}
    (h : ofIdentifier? s = some a) : ofIdentifier? (Algorithm.identifier a) = some a := by
  cases a with
  | identity => exact (Identifier.reads_keyExchange.identity_iff _).mpr Identifier.spellsNone_none
  | rsa size =>
    exact (Identifier.reads_keyExchange.printed_iff size).mpr
      ((Identifier.reads_keyExchange.sized_iff s size).mp h).1

end KeyExchangeAlgorithm

namespace SymmetricAlgorithm

theorem ofIdentifier?_identifier {s : String} {a : SymmetricAlgorithm}
    (h : ofIdentifier? s = some a) : ofIdentifier? (Algorithm.identifier a) = some a := by
  cases a with
  | identity => exact (Identifier.reads_symmetric.identity_iff _).mpr Identifier.spellsNone_none
  | aes size =>
    exact (Identifier.reads_symmetric.printed_iff size).mpr
      ((Identifier.reads_symmetric.sized_iff s size).mp h).1

end SymmetricAlgorithm

open Algorithm (identifier)
open Identifier

/-- Every text is read as an algorithm exactly by the grammar of identifiers, for key exchanges
and for the protection of frames: `None` in any letter case as the identity, and otherwise the
name of a family with a numeral whose value, as a number of any size, is a supported size. No
text names an algorithm of both kinds other than the identity, and what an algorithm is offered
as is read back to it exactly if it is supported. -/
theorem identifiers_read_exactly :
    Reads KeyExchangeAlgorithm.ofIdentifier? .identity .rsa "RSA-" "rsa-"
      [512, 1024, 2048, 4096] ∧
    Reads SymmetricAlgorithm.ofIdentifier? .identity .aes "AES-" "aes-" [128, 192, 256] ∧
    (∀ s a b, KeyExchangeAlgorithm.ofIdentifier? s = some a →
      SymmetricAlgorithm.ofIdentifier? s = some b → a = .identity ∧ b = .identity) ∧
    KeyExchangeAlgorithm.ofIdentifier? (identifier KeyExchangeAlgorithm.identity) =
      some .identity ∧
    (∀ size, KeyExchangeAlgorithm.ofIdentifier? (identifier (KeyExchangeAlgorithm.rsa size)) =
      some (.rsa size) ↔ size.toNat ∈ [512, 1024, 2048, 4096]) ∧
    SymmetricAlgorithm.ofIdentifier? (identifier SymmetricAlgorithm.identity) =
      some .identity ∧
    ∀ size, SymmetricAlgorithm.ofIdentifier? (identifier (SymmetricAlgorithm.aes size)) =
      some (.aes size) ↔ size.toNat ∈ [128, 192, 256] := by
  refine ⟨reads_keyExchange, reads_symmetric, ?_, ?_, ?_, ?_, ?_⟩
  · intro s a b ha hb
    obtain ⟨hnone, rfl⟩ | ⟨size, -, hname, rfl⟩ := rsaFamily.read?_eq_some_iff.mp ha <;>
      obtain ⟨hnone', rfl⟩ | ⟨size', -, hname', rfl⟩ := aesFamily.read?_eq_some_iff.mp hb
    · exact ⟨rfl, rfl⟩
    · exact absurd hnone (Family.not_spellsNone hname')
    · exact absurd hnone' (Family.not_spellsNone hname)
    · exact absurd hname' (names_disjoint hname)
  · exact (reads_keyExchange.identity_iff "None").mpr spellsNone_none
  · exact reads_keyExchange.printed_iff
  · exact (reads_symmetric.identity_iff "None").mpr spellsNone_none
  · exact reads_symmetric.printed_iff

/-- A plus and leading zeros are read, a number that wraps around to a supported one is not. -/
theorem identifiers_read_exactly_at_word_size :
    Names "RSA-" "rsa-" "rsa-+0002048" 2048 ∧
      KeyExchangeAlgorithm.ofIdentifier? "rsa-+0002048" = some (.rsa 2048) ∧
    UInt32.size ≤ 4294967808 ∧ Names "RSA-" "rsa-" "RSA-4294967808" 4294967808 ∧
      KeyExchangeAlgorithm.ofIdentifier? "RSA-4294967808" = none ∧
    KeyExchangeAlgorithm.ofIdentifier? "nOnE" = some .identity ∧
      SymmetricAlgorithm.ofIdentifier? "nOnE" = some .identity := by
  obtain ⟨hrsa, haes, -⟩ := identifiers_read_exactly
  have hsigned : Names "RSA-" "rsa-" "rsa-+0002048" 2048 :=
    ⟨"rsa-", "+0002048", .inr rfl, by decide, Decimal.natural?_eq_some_iff.mp (by decide)⟩
  have hlarge : Names "RSA-" "rsa-" "RSA-4294967808" 4294967808 :=
    ⟨"RSA-", "4294967808", .inl rfl, by decide, Decimal.natural?_eq_some_iff.mp (by decide)⟩
  have hnone : SpellsNone "nOnE" := isNone_iff.mp (by decide)
  exact ⟨hsigned, (hrsa.sized_iff _ 2048).mpr ⟨by decide, hsigned⟩, by decide, hlarge,
    hrsa.large _ _ (by decide) hlarge, (hrsa.identity_iff _).mpr hnone,
    (haes.identity_iff _).mpr hnone⟩

end CipherLink
