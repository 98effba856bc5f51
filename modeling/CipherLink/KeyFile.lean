import CipherLink.Rsa.Key

/-!
# Key files

A key pair is fresh for every handshake, or is kept in a file that is created
when it is first needed. A kept key has to have the length asked for, which is
compared in whole bytes of the modulus.

The path of a key file leads from the root or from the working directory through other
directories. A file is created where the last name is free in the directory that the
path leads to, unless that directory is closed to new files.
-/

namespace CipherLink

inductive KeyLifetime where
  | ephemeral
  | persisted (path : String)
deriving DecidableEq, Repr

def KeyLifetime.name : KeyLifetime → String
  | .ephemeral => "Ephemeral"
  | .persisted _ => "Persisted"

inductive KeyFiles.Entry where
  | file (content : Bytes)
  | directory
deriving DecidableEq, Repr

/-- The files and directories that a program finds. A place is told by the names that lead
to it from the root, the innermost first. -/
structure KeyFiles where
  working : List (List Char)
  entries : List (List (List Char) × KeyFiles.Entry)
  closed : List (List (List Char))
deriving DecidableEq, Repr

namespace KeyFiles

def empty : KeyFiles := ⟨[], [], []⟩

/-- What there is at a place, which is nothing unless it is in a directory. -/
def found? (k : KeyFiles) : List (List Char) → Option Entry
  | [] => some .directory
  | name :: around =>
    if k.found? around = some .directory then
      (k.entries.find? fun entry => entry.1 == name :: around).map Prod.snd
    else none

def enter (place : List (List Char)) (name : List Char) : List (List Char) :=
  if name = [] ∨ name = ['.'] then place
  else if name = ['.', '.'] then place.tail
  else name :: place

/-- Where names lead to, each of them from a directory. -/
def follow? (k : KeyFiles) (place : List (List Char)) :
    List (List Char) → Option (List (List Char))
  | [] => some place
  | name :: names =>
    if k.found? place = some .directory then k.follow? (enter place name) names else none

def place? (k : KeyFiles) (path : String) : Option (List (List Char)) :=
  let chars := path.toList
  if chars = [] ∨ '\x00' ∈ chars then none
  else k.follow? (if chars.head? = some '/' then [] else k.working) (chars.splitOn '/')

def at? (k : KeyFiles) (path : String) : Option Entry :=
  (k.place? path).bind k.found?

def read? (k : KeyFiles) (path : String) : Option Bytes :=
  match k.at? path with
  | some (.file content) => some content
  | some .directory | none => none

def write (k : KeyFiles) (path : String) (content : Bytes) : KeyFiles :=
  match k.place? path with
  | none => k
  | some place =>
    { k with entries := (place, .file content) :: k.entries.filter fun entry => entry.1 != place }

/-- Whether there is nothing at a path yet, and a file can be made there. -/
def mayCreate (k : KeyFiles) (path : String) : Bool :=
  match k.place? path with
  | some (name :: around) =>
    k.found? around = some .directory ∧ k.found? (name :: around) = none ∧ around ∉ k.closed
  | some [] | none => false

end KeyFiles

namespace Rsa

def load (bits : Nat) (path : String) (content : Bytes) : Except CryptoError PrivateKey :=
  match content.utf8?.bind fun _ => PrivateKey.ofText? content with
  | none => .error (.keyStorage path)
  | some key =>
    let stored := key.publicKey.blockLength * 8
    if stored = bits then .ok key else .error (.keySizeMismatch bits stored)

def loadOrCreate (bits : Nat) (path : String) (files : KeyFiles) (noise : Noise) :
    Except CryptoError PrivateKey × KeyFiles :=
  match files.at? path with
  | some (.file content) => (load bits path content, files)
  | some .directory => (.error (.keyStorage path), files)
  | none =>
    match generate bits noise with
    | .error e => (.error e, files)
    | .ok key =>
      if files.mayCreate path then (.ok key, files.write path key.toText)
      else (.error (.keyStorage path), files)

def obtain (bits : Nat) (lifetime : KeyLifetime) (files : KeyFiles) (noise : Noise) :
    Except CryptoError PrivateKey × KeyFiles :=
  match lifetime with
  | .ephemeral => (generate bits noise, files)
  | .persisted path => loadOrCreate bits path files noise

end Rsa

end CipherLink
