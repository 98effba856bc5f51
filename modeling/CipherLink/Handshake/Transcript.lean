import CipherLink.Handshake

/-!
# Transcripts

The bytes that one side of a handshake has sent, split into the parts they are
made of. A handshake that fails leaves a transcript that breaks off; only
complete fields are told apart, and the rest is kept as it is.

What one side has heard begins with a count of offers, and each offer is a field; a field
with the public key follows, then the same again for the symmetric offers and the package.
Counts and the lengths of fields are announced before their contents. The bytes are read
here by that form alone, and up to the first number that does not keep its limit.
-/

namespace CipherLink.Handshake

/-- A part of what was sent. The contents of offers and packages are as they are
on the wire. -/
inductive Part where
  | count (n : Nat)
  | offer (stage : Stage) (content : Bytes)
  | publicKey (text : Bytes)
  | package (content : Bytes)
  | rest (bytes : Bytes)
deriving DecidableEq, Repr

namespace Part

def field? (bs : Bytes) : Option (Bytes × Bytes) := do
  let (length, bs) ← bs.split? numberLength
  bs.split? length.toNat

def remainder (bs : Bytes) : List Part :=
  if bs.isEmpty then [] else [.rest bs]

def splitField (part : Bytes → Part) (next : Bytes → List Part) (bs : Bytes) : List Part :=
  match field? bs with
  | some (content, bs) => part content :: next bs
  | none => remainder bs

def splitEach (stage : Stage) (next : Bytes → List Part) : Nat → Bytes → List Part
  | 0, bs => next bs
  | n + 1, bs => splitField (.offer stage) (splitEach stage next n) bs

def splitOffers (stage : Stage) (next : Bytes → List Part) (bs : Bytes) : List Part :=
  match bs.split? numberLength with
  | some (number, bs) => .count number.toNat :: splitEach stage next number.toNat bs
  | none => remainder bs

def split (bs : Bytes) : List Part :=
  splitOffers .keyExchange
    (splitField .publicKey (splitOffers .symmetric (splitField .package remainder))) bs

end Part

/-- A number by which the other side announces how much is to come. -/
structure Announcement where
  value : Int
  limit : Nat
  /-- What was heard behind the number. -/
  behind : Bytes
deriving DecidableEq, Repr

namespace Announcement

def Within (a : Announcement) : Prop := 0 ≤ a.value ∧ a.value ≤ a.limit

instance (a : Announcement) : Decidable a.Within := inferInstanceAs (Decidable (_ ∧ _))

def ofNumber (limit : Nat) (next : Nat → Bytes → List Announcement) (bs : Bytes) :
    List Announcement :=
  match bs.split? numberLength with
  | none => []
  | some (number, bs) =>
    let a : Announcement := ⟨number.toInt, limit, bs⟩
    a :: if a.Within then next a.value.toNat bs else []

def ofContent (next : Bytes → List Announcement) (length : Nat) (bs : Bytes) :
    List Announcement :=
  match bs.split? length with
  | none => []
  | some (_, bs) => next bs

def ofField (limit : Nat) (next : Bytes → List Announcement) (bs : Bytes) : List Announcement :=
  ofNumber limit (ofContent next) bs

def ofFields (limit : Nat) (next : Bytes → List Announcement) :
    Nat → Bytes → List Announcement
  | 0, bs => next bs
  | n + 1, bs => ofField limit (ofFields limit next n) bs

def ofOffers (limit : Nat) (next : Bytes → List Announcement) (bs : Bytes) :
    List Announcement :=
  ofNumber maxOffers (ofFields limit next) bs

def ofHeard (limit : Nat) (bs : Bytes) : List Announcement :=
  ofOffers limit (ofField limit (ofOffers limit (ofField limit fun _ => []))) bs

end Announcement

end CipherLink.Handshake
