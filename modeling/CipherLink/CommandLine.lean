import CipherLink.Server
import CipherLink.Server.Service
import CipherLink.Text.Unprintable

/-!
# Command lines

The words that a server is started with. They are read from left to right, and
the first one that is wrong, or asks for help or the version, decides. What is
wrong with the options as a whole is found at the end.

A long option stands behind two dashes and a short one behind one. A value is
the next word, unless that begins with a dash and is longer, or it follows at
once: behind an equals sign, or for a short option also without one.

A message quotes what was given. A quote and a backslash are written behind a backslash,
and so are the usual names of some controls; other characters that show nothing
are written as their code points.
-/

namespace CipherLink.Text

def codePoint (c : Char) : String :=
  String.ofList (Nat.toDigits 16 c.toNat)

def quoteChar (c : Char) : String :=
  if c = '"' then "\\\""
  else if c = '\\' then "\\\\"
  else if c = '\n' then "\\n"
  else if c = '\r' then "\\r"
  else if c = '\t' then "\\t"
  else if c = '\x00' then "\\0"
  else if isUnprintable c then "\\u\x7b" ++ codePoint c ++ "\x7d"
  else c.toString

def quoted (s : String) : String :=
  "\"" ++ String.join (s.toList.map quoteChar) ++ "\""

end CipherLink.Text

namespace CipherLink.CommandLine

inductive Setting where
  | bindAddress
  | keyFile
  | keyExchange
  | symmetric
  | logLevel
deriving DecidableEq, Repr

inductive Flag where
  | unencrypted
  | help
  | version
deriving DecidableEq, Repr

inductive Switch where
  | setting (s : Setting)
  | flag (f : Flag)
deriving DecidableEq, Repr

def long? : String → Option Switch
  | "bind" => some (.setting .bindAddress)
  | "key-file" => some (.setting .keyFile)
  | "key-exchange" => some (.setting .keyExchange)
  | "symmetric" => some (.setting .symmetric)
  | "log-level" => some (.setting .logLevel)
  | "unencrypted" => some (.flag .unencrypted)
  | "help" => some (.flag .help)
  | "version" => some (.flag .version)
  | _ => none

def short? : Char → Option Switch
  | 'b' => some (.setting .bindAddress)
  | 'k' => some (.setting .keyFile)
  | 'h' => some (.flag .help)
  | 'V' => some (.flag .version)
  | _ => none

inductive Stop where
  | usage
  | help
  | version
deriving DecidableEq, Repr

def Stop.exitCode : Stop → Nat
  | .usage => 2
  | .help | .version => 0

structure Options where
  bindAddress : Option String
  keyFile : Option String
  keyExchange : List String
  symmetric : List String
  logLevel : Option String
  unencrypted : Bool
deriving DecidableEq, Repr

namespace Options

def empty : Options := ⟨none, none, [], [], none, false⟩

/-- The options with a value. Only algorithms may be given more than once, and a
key file has to have a name. -/
def set (o : Options) (s : Setting) (value : String) : Except Stop Options :=
  match s with
  | .bindAddress =>
    if o.bindAddress.isSome then .error .usage else .ok { o with bindAddress := some value }
  | .keyFile =>
    if o.keyFile.isSome ∨ value.isEmpty then .error .usage
    else .ok { o with keyFile := some value }
  | .keyExchange => .ok { o with keyExchange := o.keyExchange ++ [value] }
  | .symmetric => .ok { o with symmetric := o.symmetric ++ [value] }
  | .logLevel =>
    if o.logLevel.isSome then .error .usage else .ok { o with logLevel := some value }

def raise (o : Options) : Flag → Except Stop Options
  | .unencrypted =>
    if o.unencrypted then .error .usage else .ok { o with unencrypted := true }
  | .help => .error .help
  | .version => .error .version

/-- Whether algorithms or a key are given to a server that is to use none. -/
def isContradictory (o : Options) : Bool :=
  o.unencrypted && (o.keyFile.isSome || !o.keyExchange.isEmpty || !o.symmetric.isEmpty)

end Options

structure Reading where
  options : Options
  /-- The setting whose value has to be the next word. -/
  pending : Option Setting
  /-- Whether no more options may follow. -/
  isClosed : Bool
deriving DecidableEq, Repr

namespace Reading

def ofOptions (options : Options) : Reading := ⟨options, none, false⟩

/-- Reads short options, of which the last may have its value behind it. -/
def readShort (options : Options) : List Char → Except Stop Reading
  | [] => .ok (ofOptions options)
  | c :: cs =>
    match short? c, cs with
    | none, _ => .error .usage
    | some (.flag f), cs => do readShort (← options.raise f) cs
    | some (.setting s), [] => .ok { ofOptions options with pending := some s }
    | some (.setting s), '=' :: value => (options.set s (String.ofList value)).map ofOptions
    | some (.setting s), value => (options.set s (String.ofList value)).map ofOptions

def readLong (options : Options) (cs : List Char) : Except Stop Reading :=
  let (name, value) := cs.span (· != '=')
  match long? (String.ofList name), value with
  | none, _ => .error .usage
  | some (.flag f), [] => (options.raise f).map ofOptions
  | some (.flag _), _ => .error .usage
  | some (.setting s), [] => .ok { ofOptions options with pending := some s }
  | some (.setting s), _ :: value => (options.set s (String.ofList value)).map ofOptions

def readWord (options : Options) : List Char → Except Stop Reading
  | ['-', '-'] => .ok { ofOptions options with isClosed := true }
  | '-' :: '-' :: cs => readLong options cs
  | '-' :: c :: cs => readShort options (c :: cs)
  | _ => .error .usage

def isValue : List Char → Bool
  | '-' :: _ :: _ => false
  | _ => true

def read (r : Reading) (word : String) : Except Stop Reading :=
  match r.pending with
  | some s => if isValue word.toList then (r.options.set s word).map ofOptions else .error .usage
  | none => if r.isClosed then .error .usage else readWord r.options word.toList

def finish (r : Reading) : Except Stop Options :=
  if r.pending.isSome ∨ r.options.isContradictory then .error .usage else .ok r.options

end Reading

def parse (words : List String) : Except Stop Options := do
  (← words.foldlM Reading.read (.ofOptions .empty)).finish

def algorithms {α : Type} (ofIdentifier? : String → Option α) (names : List String) :
    Except ServerError (List α) :=
  names.mapM fun name =>
    match ofIdentifier? name with
    | some a => .ok a
    | none => .error (.config ("unknown algorithm " ++ name))

def offer {α : Type} [Algorithm α] (ofIdentifier? : String → Option α) (standard : Container α)
    (names : List String) : Except ServerError (Container α) :=
  if names.isEmpty then .ok standard
  else (algorithms ofIdentifier? names).map Container.ofList

namespace Options

def link (o : Options) : Except ServerError LinkConfig :=
  if o.unencrypted then .ok .unencrypted
  else do
    let standard := LinkConfig.encrypted
    let keyExchange ←
      offer KeyExchangeAlgorithm.ofIdentifier? standard.keyExchange o.keyExchange
    let symmetric ← offer SymmetricAlgorithm.ofIdentifier? standard.symmetric o.symmetric
    let keyLifetime := match o.keyFile with
      | some path => .persisted path
      | none => standard.keyLifetime
    return { standard with keyExchange, symmetric, keyLifetime }

def server (o : Options) (files : KeyFiles) (noise : Noise) : Except ServerError Server := do
  let link ← o.link
  let bindAddress := o.bindAddress.getD ServerConfig.standard.bindAddress
  let (_, server) := Relay.install (.new { ServerConfig.standard with link, bindAddress } files noise)
  server.start bindAddress

end Options

inductive Outcome where
  | stopped (reason : Stop)
  | failed (cause : ServerError)
  | serving (options : Options) (server : Server)

def run (words : List String) (files : KeyFiles) (noise : Noise) : Outcome :=
  match parse words with
  | .error reason => .stopped reason
  | .ok options =>
    match options.server files noise with
    | .error cause => .failed cause
    | .ok server => .serving options server

def Outcome.exitCode : Outcome → Nat
  | .stopped reason => reason.exitCode
  | .failed _ => 1
  | .serving _ _ => 0

def failureText : ServerError → String
  | .config detail => "Config(" ++ Text.quoted detail ++ ")"
  | cause => cause.kind

def versionLines : List String := ["blocklink-server 0.1.0"]

end CipherLink.CommandLine
