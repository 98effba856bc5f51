import CipherLink.Cbor.Record

/-!
# Messages

A message has a key, by which subscribers choose what they hear, an optional
client id and a payload. The message with the identity key announces to a client
the id under which a server knows it.

A codec turns messages into frame payloads, which it appends to a buffer, and back.
`Codec.records` writes a message as its record. Other codecs may fail, or announce another
size than they write.
-/

namespace CipherLink

structure ClientId where
  value : BitVec 128
deriving DecidableEq, Repr

namespace ClientId

def ofNat (n : Nat) : ClientId := ⟨BitVec.ofNat 128 n⟩

def toNat (id : ClientId) : Nat := id.value.toNat

def toBytes (id : ClientId) : Bytes := Bytes.ofNat 16 id.toNat

def ofBytes (bs : Bytes) : ClientId := ofNat bs.toNat

def render (id : ClientId) : String :=
  let group (start length : Nat) : String := Bytes.hex ((id.toBytes.drop start).take length)
  String.intercalate "-" [group 0 4, group 4 2, group 6 2, group 8 2, group 10 6]

end ClientId

abbrev MessageKey := Int32

namespace MessageKey

def identity : MessageKey := -1

def text : MessageKey := 0

def exit : MessageKey := 1

end MessageKey

structure Message where
  key : MessageKey
  clientId : Option ClientId
  payload : Bytes
deriving DecidableEq, Repr

namespace Message

def identity (id : ClientId) : Message :=
  ⟨MessageKey.identity, some id, []⟩

def assignedIdentity (message : Message) : Option ClientId :=
  if message.key = MessageKey.identity then message.clientId else none

def stamped (message : Message) (id : ClientId) : Message :=
  { message with clientId := some id }

def payloadText? (message : Message) : Option String :=
  message.payload.utf8?

end Message

open Cbor in
instance : Recorded Message where
  schema := [
    ⟨"key", .integer (-0x80000000) 0x7fffffff, false⟩,
    ⟨"client_id", .fixed 16, true⟩,
    ⟨"payload", .octets, false⟩]
  values message := [
    .integer message.key.toInt,
    match message.clientId with
      | some id => .octets id.toBytes
      | none => .absent,
    .octets message.payload]
  ofValues?
    | [.integer key, .octets id, .octets payload] =>
      some ⟨Int32.ofInt key, some (ClientId.ofBytes id), payload⟩
    | [.integer key, .absent, .octets payload] => some ⟨Int32.ofInt key, none, payload⟩
    | _ => none

inductive CodecError where
  | encode (detail : String)
  | decode (detail : String)
deriving DecidableEq, Repr

def CodecError.message : CodecError → String
  | .encode detail => "encode failed: " ++ detail
  | .decode detail => "decode failed: " ++ detail

structure Codec where
  appendTo : Bytes → Message → Except CodecError Bytes
  decode : Bytes → Except CodecError Message
  size : Message → Except CodecError Nat

namespace Codec

/-- What is appended to an empty buffer. -/
def encode (codec : Codec) (message : Message) : Except CodecError Bytes :=
  codec.appendTo [] message

def records : Codec where
  appendTo buffer message := .ok (Recorded.appendTo buffer message)
  decode bs := (Recorded.decode bs).mapError fun fault => .decode fault.name
  size message := .ok (Recorded.encodedSize message)

end Codec

end CipherLink
