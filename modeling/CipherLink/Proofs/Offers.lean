import CipherLink.CommandLine
import CipherLink.Proofs.ContainerChanges
import CipherLink.Proofs.Identifiers

/-!
# Offers of a command line

The names of algorithms on a command line are looked up in order, those of key exchanges
first, and the first one that names none is reported. Otherwise each side of the link offers
the algorithms that were named for it: the same container in whatever order, how often and in
whatever spelling they were named.
-/

namespace CipherLink

namespace Container

variable {α : Type} [Algorithm α] {as : List α} {a : α}

open Algorithm (identifier Precedes)

theorem get?_ofList (hdistinct : ∀ a ∈ as, ∀ b ∈ as, identifier a = identifier b → a = b)
    (id : String) : (ofList as).get? id = some a ↔ a ∈ as ∧ identifier a = id := by
  induction as using List.reverseRecOn with
  | nil => simp [ofList, empty, get?]
  | append_singleton as b ih =>
    have hinsert : ofList (as ++ [b]) = (ofList as).insert b := by
      rw [ofList, List.foldl_append]
      rfl
    rw [hinsert, get?_insert, List.mem_append, List.mem_singleton]
    split
    · next hb =>
      rw [Option.some.injEq]
      constructor
      · rintro rfl
        exact ⟨.inr rfl, hb⟩
      · rintro ⟨hmem | rfl, ha⟩
        · exact hdistinct b (by simp) a (by simp [hmem]) (hb.trans ha.symm)
        · rfl
    · next hb =>
      rw [ih fun x hx y hy => hdistinct x (List.mem_append_left _ hx) y (List.mem_append_left _ hy)]
      refine ⟨And.imp_left .inl, ?_⟩
      rintro ⟨hmem | rfl, ha⟩
      · exact ⟨hmem, ha⟩
      · exact absurd ha hb

theorem mem_ofList_iff (hdistinct : ∀ a ∈ as, ∀ b ∈ as, identifier a = identifier b → a = b) :
    a ∈ (ofList as).algorithms ↔ a ∈ as := by
  rw [mem_algorithms_iff, get?_ofList hdistinct]
  exact and_iff_left rfl

theorem eq_of_mem_iff {c d : Container α} (h : ∀ a, a ∈ c.algorithms ↔ a ∈ d.algorithms) :
    c = d := by
  obtain ⟨as, has⟩ := c
  obtain ⟨bs, hbs⟩ := d
  have hnodup {cs : List α} (hcs : cs.Pairwise Precedes) : cs.Nodup :=
    hcs.imp fun hlt heq => by
      rw [heq] at hlt
      exact String.lt_irrefl _ hlt
  have hperm : as.Perm bs := (List.perm_ext_iff_of_nodup (hnodup has) (hnodup hbs)).mpr h
  have hsame : as = bs := hperm.eq_of_pairwise
    (fun a b _ _ hab hba => absurd (String.lt_trans hab hba) (String.lt_irrefl _)) has hbs
  subst hsame
  rfl

end Container

namespace CommandLine

open Algorithm (identifier)
open Identifier (SpellsNone)

section

variable {α : Type} {ofIdentifier? : String → Option α} {names names' : List String} {a : α}

def unknown? (ofIdentifier? : String → Option α) (names : List String) : Option String :=
  names.find? fun name => (ofIdentifier? name).isNone

theorem unknown?_eq_none_iff : unknown? ofIdentifier? names = none ↔
    ∀ name ∈ names, (ofIdentifier? name).isSome := by
  rw [unknown?, List.find?_eq_none]
  refine forall₂_congr fun name _ => ?_
  cases ofIdentifier? name <;> simp

theorem algorithms_eq (ofIdentifier? : String → Option α) (names : List String) :
    algorithms ofIdentifier? names = match unknown? ofIdentifier? names with
      | some name => .error (.config ("unknown algorithm " ++ name))
      | none => .ok (names.filterMap ofIdentifier?) := by
  rw [algorithms, unknown?]
  induction names with
  | nil => rfl
  | cons name names ih =>
    rw [List.mapM_cons, List.find?_cons, List.filterMap_cons, ih]
    cases ofIdentifier? name with
    | none => rfl
    | some a => cases names.find? fun name => (ofIdentifier? name).isNone <;> rfl

/-- Whether an algorithm is among those that were named, or among the standard ones if none
were. -/
def Asked (ofIdentifier? : String → Option α) (standard : List α) (names : List String)
    (a : α) : Prop :=
  if names = [] then a ∈ standard else ∃ name ∈ names, ofIdentifier? name = some a

def NamedAlike (ofIdentifier? : String → Option α) (names names' : List String) : Prop :=
  ∀ a, (∃ name ∈ names, ofIdentifier? name = some a) ↔
    ∃ name ∈ names', ofIdentifier? name = some a

namespace NamedAlike

theorem symm (h : NamedAlike ofIdentifier? names names') :
    NamedAlike ofIdentifier? names' names := fun a => (h a).symm

theorem eq_nil (h : NamedAlike ofIdentifier? [] names)
    (hknown : unknown? ofIdentifier? names = none) : names = [] := by
  cases names with
  | nil => rfl
  | cons name names =>
    obtain ⟨a, ha⟩ := Option.isSome_iff_exists.mp
      (unknown?_eq_none_iff.mp hknown name List.mem_cons_self)
    obtain ⟨_, hmem, -⟩ := (h a).mpr ⟨name, List.mem_cons_self, ha⟩
    exact absurd hmem List.not_mem_nil

theorem asked_iff {standard : List α} (h : NamedAlike ofIdentifier? names names')
    (hknown : unknown? ofIdentifier? names = none)
    (hknown' : unknown? ofIdentifier? names' = none) :
    Asked ofIdentifier? standard names a ↔ Asked ofIdentifier? standard names' a := by
  cases names with
  | nil => rw [h.eq_nil hknown']
  | cons name names =>
    cases names' with
    | nil => rw [h.symm.eq_nil hknown]
    | cons name' names' =>
      rw [Asked, Asked, if_neg (List.cons_ne_nil _ _), if_neg (List.cons_ne_nil _ _)]
      exact h a

end NamedAlike

variable [Algorithm α] {identity : α} {standard : List α}

def offered (ofIdentifier? : String → Option α) (standard : List α) (names : List String) :
    Container α :=
  .ofList (if names = [] then standard else names.filterMap ofIdentifier?)

theorem offer_eq (ofIdentifier? : String → Option α) (standard : List α) (names : List String) :
    offer ofIdentifier? (.ofList standard) names = match unknown? ofIdentifier? names with
      | some name => .error (.config ("unknown algorithm " ++ name))
      | none => .ok (offered ofIdentifier? standard names) := by
  cases names with
  | nil => rfl
  | cons name names =>
    have hnil : name :: names ≠ [] := List.cons_ne_nil name names
    rw [offer, algorithms_eq, offered, if_neg hnil]
    cases unknown? ofIdentifier? (name :: names) <;> rfl

/-- Names that lead back from the identifiers of the algorithms they name, and standard
algorithms without the identity, which only `None` names. -/
structure Vocabulary (ofIdentifier? : String → Option α) (identity : α) (standard : List α) :
    Prop where
  printed : ∀ {name a}, ofIdentifier? name = some a → ofIdentifier? (identifier a) = some a
  standard_printed : ∀ a ∈ standard, ofIdentifier? (identifier a) = some a
  identity_iff : ∀ name, ofIdentifier? name = some identity ↔ SpellsNone name
  secure : identity ∉ standard

/-- A container that offers what was named for it, and the identity only by its name. -/
structure Offers (ofIdentifier? : String → Option α) (identity : α) (standard : List α)
    (names : List String) (offered : Container α) : Prop where
  mem_iff : ∀ a, a ∈ offered.algorithms ↔ Asked ofIdentifier? standard names a
  identity_named : identity ∈ offered.algorithms → ∃ name ∈ names, SpellsNone name

namespace Vocabulary

variable (v : Vocabulary ofIdentifier? identity standard)
include v

theorem mem_offered_iff : a ∈ (offered ofIdentifier? standard names).algorithms ↔
    Asked ofIdentifier? standard names a := by
  have hback : ∀ a ∈ if names = [] then standard else names.filterMap ofIdentifier?,
      ofIdentifier? (identifier a) = some a := by
    split
    · exact v.standard_printed
    · intro a ha
      obtain ⟨name, -, hname⟩ := List.mem_filterMap.mp ha
      exact v.printed hname
  rw [offered, Container.mem_ofList_iff, Asked]
  · split
    · rfl
    · exact List.mem_filterMap
  · intro a ha b hb hsame
    have hname := hback a ha
    rw [hsame, hback b hb] at hname
    exact (Option.some.inj hname).symm

theorem offers_offered :
    Offers ofIdentifier? identity standard names (offered ofIdentifier? standard names) := by
  refine ⟨fun a => v.mem_offered_iff, fun h => ?_⟩
  have hasked := v.mem_offered_iff.mp h
  rw [Asked] at hasked
  split at hasked
  · exact absurd hasked v.secure
  · exact hasked.imp fun name ⟨hname, hread⟩ => ⟨hname, (v.identity_iff name).mp hread⟩

theorem offered_eq (h : NamedAlike ofIdentifier? names names')
    (hknown : unknown? ofIdentifier? names = none)
    (hknown' : unknown? ofIdentifier? names' = none) :
    offered ofIdentifier? standard names = offered ofIdentifier? standard names' :=
  Container.eq_of_mem_iff fun _ => by
    rw [v.mem_offered_iff, v.mem_offered_iff]
    exact h.asked_iff hknown hknown'

end Vocabulary

end

theorem vocabulary_keyExchange :
    Vocabulary KeyExchangeAlgorithm.ofIdentifier? .identity [.rsa 1024, .rsa 2048] where
  printed := KeyExchangeAlgorithm.ofIdentifier?_identifier
  standard_printed := by decide
  identity_iff := Identifier.reads_keyExchange.identity_iff
  secure := by decide

theorem vocabulary_symmetric :
    Vocabulary SymmetricAlgorithm.ofIdentifier? .identity [.aes 128, .aes 192, .aes 256] where
  printed := SymmetricAlgorithm.ofIdentifier?_identifier
  standard_printed := by decide
  identity_iff := Identifier.reads_symmetric.identity_iff
  secure := by decide

namespace Options

variable {o : Options} {link : LinkConfig}

def unknown? (o : Options) : Option String :=
  (CommandLine.unknown? KeyExchangeAlgorithm.ofIdentifier? o.keyExchange).or
    (CommandLine.unknown? SymmetricAlgorithm.ofIdentifier? o.symmetric)

theorem unknown?_eq_none_iff : o.unknown? = none ↔
    CommandLine.unknown? KeyExchangeAlgorithm.ofIdentifier? o.keyExchange = none ∧
      CommandLine.unknown? SymmetricAlgorithm.ofIdentifier? o.symmetric = none :=
  Option.or_eq_none_iff

def linkOfKnown (o : Options) : LinkConfig :=
  { LinkConfig.encrypted with
    keyExchange := offered KeyExchangeAlgorithm.ofIdentifier? [.rsa 1024, .rsa 2048] o.keyExchange
    symmetric :=
      offered SymmetricAlgorithm.ofIdentifier? [.aes 128, .aes 192, .aes 256] o.symmetric
    keyLifetime := match o.keyFile with
      | some path => .persisted path
      | none => .ephemeral }

theorem link_eq (ho : o.unencrypted = false) : o.link = match o.unknown? with
    | some name => .error (.config ("unknown algorithm " ++ name))
    | none => .ok o.linkOfKnown := by
  have hkeyExchange : LinkConfig.encrypted.keyExchange = .ofList [.rsa 1024, .rsa 2048] := rfl
  have hsymmetric : LinkConfig.encrypted.symmetric = .ofList [.aes 128, .aes 192, .aes 256] := rfl
  rw [Options.link, if_neg (by simp [ho])]
  dsimp only
  rw [hkeyExchange, hsymmetric, offer_eq, offer_eq, unknown?]
  cases CommandLine.unknown? KeyExchangeAlgorithm.ofIdentifier? o.keyExchange with
  | some name => rfl
  | none => cases CommandLine.unknown? SymmetricAlgorithm.ofIdentifier? o.symmetric <;> rfl

theorem link_eq_error_iff (ho : o.unencrypted = false) {e : ServerError} :
    o.link = .error e ↔
      ∃ name, o.unknown? = some name ∧ e = .config ("unknown algorithm " ++ name) := by
  rw [link_eq ho]
  cases o.unknown? <;> simp [eq_comm]

theorem link_eq_ok_iff (ho : o.unencrypted = false) :
    o.link = .ok link ↔ o.unknown? = none ∧ link = o.linkOfKnown := by
  rw [link_eq ho]
  cases o.unknown? <;> simp [eq_comm]

theorem linkOfKnown_keyLifetime (path : String) :
    o.linkOfKnown.keyLifetime = .persisted path ↔ o.keyFile = some path := by
  rw [linkOfKnown]
  cases o.keyFile <;> simp

end Options

/-- The link of a command line that asks for encryption fails exactly if some name is unknown,
with the first such name, those of key exchanges before those of ciphers. Otherwise each side
offers exactly the algorithms that were named for it, or the standard ones, and the identity
only if it was named; the key is kept exactly in the file that was given; and another command
line on which the same algorithms are named, in any order and spelling and however often,
makes the same offers. -/
theorem offers_follow_names (o : Options) (ho : o.unencrypted = false) :
    (∀ e, o.link = .error e ↔
      ∃ name, o.unknown? = some name ∧ e = .config ("unknown algorithm " ++ name)) ∧
    ((∀ name ∈ o.keyExchange, (KeyExchangeAlgorithm.ofIdentifier? name).isSome) →
      (∀ name ∈ o.symmetric, (SymmetricAlgorithm.ofIdentifier? name).isSome) →
      ∃ link, o.link = .ok link ∧
        Offers KeyExchangeAlgorithm.ofIdentifier? .identity [.rsa 1024, .rsa 2048]
          o.keyExchange link.keyExchange ∧
        Offers SymmetricAlgorithm.ofIdentifier? .identity [.aes 128, .aes 192, .aes 256]
          o.symmetric link.symmetric ∧
        ∀ path, link.keyLifetime = .persisted path ↔ o.keyFile = some path) ∧
    ∀ (o' : Options) (link link' : LinkConfig), o'.unencrypted = false →
      o.link = .ok link → o'.link = .ok link' →
      (NamedAlike KeyExchangeAlgorithm.ofIdentifier? o.keyExchange o'.keyExchange →
        link'.keyExchange = link.keyExchange) ∧
      (NamedAlike SymmetricAlgorithm.ofIdentifier? o.symmetric o'.symmetric →
        link'.symmetric = link.symmetric) := by
  refine ⟨fun e => Options.link_eq_error_iff ho, ?_, ?_⟩
  · intro hkeyExchange hsymmetric
    have hknown : o.unknown? = none := Options.unknown?_eq_none_iff.mpr
      ⟨unknown?_eq_none_iff.mpr hkeyExchange, unknown?_eq_none_iff.mpr hsymmetric⟩
    exact ⟨o.linkOfKnown, (Options.link_eq_ok_iff ho).mpr ⟨hknown, rfl⟩,
      vocabulary_keyExchange.offers_offered, vocabulary_symmetric.offers_offered,
      Options.linkOfKnown_keyLifetime⟩
  · intro o' link link' ho' hlink hlink'
    obtain ⟨hknown, rfl⟩ := (Options.link_eq_ok_iff ho).mp hlink
    obtain ⟨hknown', rfl⟩ := (Options.link_eq_ok_iff ho').mp hlink'
    obtain ⟨hkeyExchange, hsymmetric⟩ := Options.unknown?_eq_none_iff.mp hknown
    obtain ⟨hkeyExchange', hsymmetric'⟩ := Options.unknown?_eq_none_iff.mp hknown'
    exact ⟨fun h => vocabulary_keyExchange.offered_eq h.symm hkeyExchange' hkeyExchange,
      fun h => vocabulary_symmetric.offered_eq h.symm hsymmetric' hsymmetric⟩

/-- Two spellings of one choice that includes the identity, and a name of each side that is not
known. -/
theorem offers_follow_names_with_none :
    (∃ link link' : LinkConfig,
      Options.link ⟨none, some "server.pem", ["rsa-2048", "NONE", "RSA-+2048"], ["aes-0256"],
        none, false⟩ = .ok link ∧
      Options.link ⟨none, none, ["none", "RSA-2048"], ["AES-256"], none, false⟩ = .ok link' ∧
      link'.keyExchange = link.keyExchange ∧ link'.symmetric = link.symmetric ∧
      (∃ name ∈ ["rsa-2048", "NONE", "RSA-+2048"], SpellsNone name) ∧
      .identity ∉ link.symmetric.algorithms ∧ link.keyLifetime = .persisted "server.pem") ∧
    Options.link ⟨none, none, ["RSA-1024", "RSA-768"], ["AES-512"], none, false⟩ =
      .error (.config "unknown algorithm RSA-768") := by
  obtain ⟨-, hknown, hsame⟩ := offers_follow_names
    ⟨none, some "server.pem", ["rsa-2048", "NONE", "RSA-+2048"], ["aes-0256"], none, false⟩ rfl
  obtain ⟨-, hknown', -⟩ := offers_follow_names
    ⟨none, none, ["none", "RSA-2048"], ["AES-256"], none, false⟩ rfl
  obtain ⟨herror, -⟩ := offers_follow_names
    ⟨none, none, ["RSA-1024", "RSA-768"], ["AES-512"], none, false⟩ rfl
  obtain ⟨link, hlink, hkeyExchange, hsymmetric, hlifetime⟩ := hknown (by decide) (by decide)
  obtain ⟨link', hlink', -⟩ := hknown' (by decide) (by decide)
  obtain ⟨hsame, hsame'⟩ := hsame _ link link' rfl hlink hlink'
  have hrsa : KeyExchangeAlgorithm.ofIdentifier? "rsa-2048" = some (.rsa 2048) := by decide
  have hsigned : KeyExchangeAlgorithm.ofIdentifier? "RSA-+2048" = some (.rsa 2048) := by decide
  have hcapital : KeyExchangeAlgorithm.ofIdentifier? "RSA-2048" = some (.rsa 2048) := by decide
  have hnone : KeyExchangeAlgorithm.ofIdentifier? "NONE" = some .identity := by decide
  have hsmall : KeyExchangeAlgorithm.ofIdentifier? "none" = some .identity := by decide
  have hzero : SymmetricAlgorithm.ofIdentifier? "aes-0256" = some (.aes 256) := by decide
  have haes : SymmetricAlgorithm.ofIdentifier? "AES-256" = some (.aes 256) := by decide
  refine ⟨⟨link, link', hlink, hlink', hsame ?_, hsame' ?_, ?_, ?_, ?_⟩, ?_⟩
  · intro a
    simp only [List.mem_cons, List.not_mem_nil, or_false, exists_eq_or_imp, exists_eq_left, hrsa,
      hsigned, hcapital, hnone, hsmall]
    tauto
  · intro a
    simp only [List.mem_singleton, exists_eq_left, hzero, haes]
  · exact hkeyExchange.identity_named
      ((hkeyExchange.mem_iff _).mpr ⟨"NONE", by simp, hnone⟩)
  · intro h
    obtain ⟨name, hname, hspells⟩ := hsymmetric.identity_named h
    rw [List.mem_singleton.mp hname] at hspells
    exact absurd hspells (by simp [SpellsNone])
  · exact (hlifetime "server.pem").mpr rfl
  · exact (herror _).mpr ⟨"RSA-768", by decide, by decide⟩

end CommandLine

end CipherLink
