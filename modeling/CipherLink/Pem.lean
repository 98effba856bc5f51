import CipherLink.Bytes

/-!
# Textual key encoding

Data are written in base 64 on lines of 64 digits, between a line that begins
and a line that ends a named block. Text may stand in front of the block, on
lines of its own. A line may end in a line feed, a carriage return or both, in
this order; every line but the last of the block holds exactly 64 digits.

In base 64 three bytes are written as four digits of six bits. One or two bytes at the end
are written as two or three digits with their unused bits zero, and filled up to
four by padding. Reading accepts exactly what is written.
-/

namespace CipherLink.Base64

def padding : UInt8 := 61

def digit (n : Nat) : UInt8 :=
  if n < 26 then UInt8.ofNat (65 + n)
  else if n < 52 then UInt8.ofNat (71 + n)
  else if n < 62 then UInt8.ofNat (n - 4)
  else if n = 62 then 43
  else 47

def value? (b : UInt8) : Option Nat :=
  let n := b.toNat
  if 65 ≤ n ∧ n ≤ 90 then some (n - 65)
  else if 97 ≤ n ∧ n ≤ 122 then some (n - 71)
  else if 48 ≤ n ∧ n ≤ 57 then some (n + 4)
  else if n = 43 then some 62
  else if n = 47 then some 63
  else none

def encode : Bytes → Bytes
  | a :: b :: c :: rest =>
    let n := (a.toNat * 256 + b.toNat) * 256 + c.toNat
    digit (n >>> 18) :: digit ((n >>> 12) % 64) :: digit ((n >>> 6) % 64) :: digit (n % 64) ::
      encode rest
  | [a, b] =>
    let n := (a.toNat * 256 + b.toNat) * 4
    [digit (n >>> 12), digit ((n >>> 6) % 64), digit (n % 64), padding]
  | [a] =>
    let n := a.toNat * 16
    [digit (n >>> 6), digit (n % 64), padding, padding]
  | [] => []

def group? (a b c d : UInt8) : Option Bytes := do
  let n := (((← value? a) * 64 + (← value? b)) * 64 + (← value? c)) * 64 + (← value? d)
  return Bytes.ofNat 3 n

/-- The bytes of four digits, of which the last may be padding. -/
def lastGroup? (a b c d : UInt8) : Option Bytes :=
  if d ≠ padding then group? a b c d
  else if c ≠ padding then do
    let n := ((← value? a) * 64 + (← value? b)) * 64 + (← value? c)
    if n % 4 = 0 then some (Bytes.ofNat 2 (n / 4)) else none
  else do
    let n := (← value? a) * 64 + (← value? b)
    if n % 16 = 0 then some (Bytes.ofNat 1 (n / 16)) else none

/-- Reads groups of four digits, with padding in the last one if `mayPad`. -/
def decode? (mayPad : Bool) : Bytes → Option Bytes
  | [] => some []
  | [a, b, c, d] => if mayPad then lastGroup? a b c d else group? a b c d
  | a :: b :: c :: d :: rest => do
    let front ← group? a b c d
    return front ++ (← decode? mayPad rest)
  | _ => none

end CipherLink.Base64

namespace CipherLink.Pem

def lineWidth : Nat := 64

def lineFeed : UInt8 := 10

def carriageReturn : UInt8 := 13

def opening : Bytes := Bytes.ofString "-----BEGIN "

def beginLine (label : String) : Bytes := Bytes.ofString ("-----BEGIN " ++ label ++ "-----")

def endLine (label : String) : Bytes := Bytes.ofString ("-----END " ++ label ++ "-----")

def encode (label : String) (content : Bytes) : Bytes :=
  let lines := beginLine label :: Bytes.chunks lineWidth (Base64.encode content) ++ [endLine label]
  lines.flatMap fun line => line ++ [lineFeed]

def stripLineEnd? : Bytes → Option Bytes
  | b :: bs =>
    if b = lineFeed then some bs
    else if b = carriageReturn then
      match bs with
      | c :: cs => if c = lineFeed then some cs else some bs
      | [] => some bs
    else none
  | [] => none

theorem stripLineEnd?_length {bs rest : Bytes} (h : stripLineEnd? bs = some rest) :
    rest.length < bs.length := by
  rcases bs with _ | ⟨b, _ | ⟨c, cs⟩⟩ <;> grind [stripLineEnd?]

/-- The bytes in front of the end of a line, given in reverse. -/
def stripFinalLineEnd? : Bytes → Option Bytes
  | b :: bs =>
    if b = lineFeed then
      match bs with
      | c :: cs => if c = carriageReturn then some cs else some bs
      | [] => some bs
    else if b = carriageReturn then some bs
    else none
  | [] => none

def trimLineEnd (bs : Bytes) : Bytes :=
  match stripFinalLineEnd? bs.reverse with
  | some front => front.reverse
  | none => bs

def skipPreamble? : Bool → Bytes → Option Bytes
  | _, [] => none
  | atLineStart, b :: bs =>
    if atLineStart ∧ opening.isPrefixOf (b :: bs) then some (b :: bs)
    else if b = 0 then none
    else skipPreamble? (b == lineFeed) bs

def decodeLines? (text : Bytes) : Option Bytes :=
  if text.length ≤ lineWidth then Base64.decode? true (trimLineEnd text)
  else
    match _h : stripLineEnd? (text.drop lineWidth) with
    | none => none
    | some rest =>
      if rest.isEmpty then Base64.decode? true (text.take lineWidth)
      else do
        let front ← Base64.decode? false (text.take lineWidth)
        return front ++ (← decodeLines? rest)
termination_by text.length
decreasing_by
  have := stripLineEnd?_length _h
  simp only [List.length_drop] at this
  omega

/-- The data of the first block, which has to bear the label and to be the last
thing but one line end. -/
def decode? (label : String) (text : Bytes) : Option Bytes := do
  let block ← skipPreamble? true text
  let body ← stripLineEnd? (← (beginLine label).isPrefixOf? block)
  let lines ← (endLine label).isSuffixOf? (trimLineEnd body)
  let lines ← stripFinalLineEnd? lines.reverse
  decodeLines? lines.reverse

end CipherLink.Pem
