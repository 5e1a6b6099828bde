import WireFormat.Blob
import WireFormat.Sequence

/-! Transfers: a record that uses every kind of field. Its JSON form leaves the fee out. -/

namespace WireFormat

/-- A transfer between accounts. -/
structure Transfer where
  version : Word 1
  amount : BitVec 64
  fee : Word 32
  unlock : Bool
  inputs : List (Blob 32)
  outputs : Sequence (Blob 4)
  deriving DecidableEq

namespace Transfer

def inputsCodec : Codec (List (Blob 32)) := (Blob.codec 32).list

def outputsCodec : Codec (Sequence (Blob 4)) := Sequence.codec (Blob.codec 4)

/-- The number of bytes: the amount and the two lists vary. -/
def size (t : Transfer) : Nat :=
  1 + Varint.size t.amount.toNat + 32 + 1 + inputsCodec.size t.inputs + outputsCodec.size t.outputs

def encode (t : Transfer) : Encoder :=
  (Encoder.word .little t.version).andThen <|
  (Encoder.varint 64 t.amount.toNat).andThen <|
  (Encoder.word .little t.fee).andThen <|
  (Encoder.boolean t.unlock).andThen <|
  (inputsCodec.encode t.inputs).andThen (outputsCodec.encode t.outputs)

def decode : Decoder Transfer := do
  let version ← Decoder.word 1 .little
  let amount ← Decoder.varint 64
  let fee ← Decoder.word 32 .little
  let unlock ← Decoder.boolean
  let inputs ← inputsCodec.decode
  let outputs ← outputsCodec.decode
  return { version, amount, fee, unlock, inputs, outputs }

/-- The fields other than the fee. -/
def toJson (t : Transfer) : Json :=
  .object [
    ("version", .ofNat t.version.toNat),
    ("amount", .ofNat t.amount.toNat),
    ("unlock", .bool t.unlock),
    ("inputs", inputsCodec.toJson t.inputs),
    ("outputs", outputsCodec.toJson t.outputs)]

/-- Loads the fields in order; the fee is zero. The version is asked for as an integer of 32 bits and has
    to fit one byte. -/
def ofJson (value : Json) : Except Error Transfer := do
  let version ← value.memberAs Json.asU32 "version"
  if 256 ≤ version then throw (.invalidArgument .version)
  let amount ← value.memberAs Json.asU64 "amount"
  let unlock ← value.memberAs Json.asBool "unlock"
  let inputs ← inputsCodec.ofJsonMember value "inputs"
  let outputs ← outputsCodec.ofJsonMember value "outputs"
  return {
    version := BitVec.ofNat 8 version
    amount := BitVec.ofNat 64 amount
    fee := 0
    unlock, inputs, outputs }

def codec : Codec Transfer where
  size := size
  encode := encode
  decode := decode
  toJson := toJson
  ofJson := ofJson

end Transfer
end WireFormat
