import Arbor.Codec.Error
import Arbor.Wire.Varint

/-! Trees in the protocol buffers wire format:
```
message Node {
  int32 kind = 1;
  sint64 int = 2;
  double float = 3;
  bool bool = 4;
  string str = 5;
  repeated Node children = 6;
}
```
-/
namespace Arbor

namespace Wire

inductive WireType where
  | varint
  | fixed64
  | bytes
  | startGroup
  | endGroup
  | fixed32
  /-- Six and seven mean nothing. -/
  | reserved (n : Nat)
  deriving DecidableEq, Repr

namespace WireType

def number : WireType → Nat
  | varint => 0
  | fixed64 => 1
  | bytes => 2
  | startGroup => 3
  | endGroup => 4
  | fixed32 => 5
  | reserved n => n

def ofNumber (n : Nat) : WireType :=
  match n with
  | 0 => varint
  | 1 => fixed64
  | 2 => bytes
  | 3 => startGroup
  | 4 => endGroup
  | 5 => fixed32
  | n => reserved n

end WireType

def tag (number : Nat) (type : WireType) : Bytes := varint (8 * number + type.number)

/-- Signed numbers with small magnitudes come first. -/
def zigzag : Int → Nat
  | .ofNat n => 2 * n
  | .negSucc n => 2 * n + 1

def unzigzag (n : Nat) : Int := if n % 2 = 0 then (n / 2 : Nat) else -((n / 2 : Nat) + 1 : Int)

/-- A field number between one and `2 ^ 31 - 1`, and the form of the value. -/
def readTag? (b : Bytes) : Option (Nat × WireType × Bytes) := do
  let (n, rest) ← readVarint? b
  let number := n / 8
  if number = 0 ∨ 2 ^ 31 ≤ number then none
  else return (number, WireType.ofNumber (n % 8), rest)

def readFixed? (width : Nat) (b : Bytes) : Option (Nat × Bytes) :=
  (Bytes.splitAt? width b).map fun (word, rest) => (ofLittleEndian word, rest)

def maxGroups : Nat := 10000

mutual

def skipValue? : Nat → Nat → Nat → WireType → Bytes → Option Bytes
  | 0, _, _, _, _ => none
  | fuel + 1, level, number, type, b =>
    match type with
    | .varint => (readVarint? b).map Prod.snd
    | .fixed64 => (readFixed? 8 b).map Prod.snd
    | .fixed32 => (readFixed? 4 b).map Prod.snd
    | .bytes => (readCounted? b).map Prod.snd
    | .startGroup => if maxGroups < level then none else skipGroup? fuel level number b
    | .endGroup | .reserved _ => none

def skipGroup? : Nat → Nat → Nat → Bytes → Option Bytes
  | 0, _, _, _ => none
  | fuel + 1, level, number, b => do
    let (inner, type, rest) ← readTag? b
    if type = .endGroup then
      if inner = number then return rest else none
    else
      let rest ← skipValue? fuel (level + 1) inner type rest
      skipGroup? fuel level number rest

end

end Wire

namespace Field

def wireType : Field → Wire.WireType
  | float => .fixed64
  | str | children => .bytes
  | _ => .varint

def tag (f : Field) : Bytes := Wire.tag f.number f.wireType

end Field

namespace Head

def protoFields (h : Head) : Bytes :=
  let p := h.payload
  Field.kind.tag ++ Wire.varint h.kind.ordinal ++
  (if p.int ≠ 0 then Field.int.tag ++ Wire.varint (Wire.zigzag p.int.toInt) else []) ++
  (if p.float.isZero then [] else Field.float.tag ++ Wire.littleEndian 8 p.float.bits.toNat) ++
  (if p.bool then Field.bool.tag ++ [1] else []) ++
  (if p.str ≠ [] then Field.str.tag ++ Wire.counted p.str else [])

end Head

namespace Tree

mutual

/-- The message of a tree in front of `rest`, with the length of the message. -/
def protoOnto (rest : Bytes) : Tree → Nat × Bytes
  | absent => (0, rest)
  | node h cs =>
    let (n, body) := protoAllOnto rest cs
    let own := h.protoFields
    (own.length + n, own ++ body)

def protoAllOnto (rest : Bytes) : List Tree → Nat × Bytes
  | [] => (0, rest)
  | t :: ts =>
    let (n, tail) := protoAllOnto rest ts
    let (m, body) := protoOnto tail t
    let lead := Field.children.tag ++ Wire.varint m
    (lead.length + m + n, lead ++ body)

end

end Tree

namespace Codec

def writeProto (t : Tree) : Bytes := (t.protoOnto []).2

/-- A message as read so far, the children last first. -/
structure Draft where
  kind : Nat := 0
  payload : Payload := {}
  children : List Tree := []

def wire (o : Option α) : Except CodecError α :=
  match o with
  | some a => .ok a
  | none => .error .encoding

def Draft.tree (d : Draft) : Except CodecError Tree :=
  (Tree.build d.kind d.payload d.children.reverse).mapError .fault

def readScalar (d : Draft) (f : Field) (b : Bytes) : Except CodecError (Draft × Bytes) :=
  match f with
  | .kind => do
    let (n, rest) ← wire (Wire.readVarint? b)
    if n < 15 then return ({ d with kind := n }, rest)
    else .error (.fault (.noKind n))
  | .int => do
    let (n, rest) ← wire (Wire.readVarint? b)
    return ({ d with payload.int := Int64.ofInt (Wire.unzigzag n) }, rest)
  | .float => do
    let (n, rest) ← wire (Wire.readFixed? 8 b)
    return ({ d with payload.float := ⟨n.toUInt64⟩ }, rest)
  | .bool => do
    let (n, rest) ← wire (Wire.readVarint? b)
    return ({ d with payload.bool := n ≠ 0 }, rest)
  | .str => do
    let (s, rest) ← wire (Wire.readCounted? b)
    return ({ d with payload.str := s }, rest)
  | .children => .ok (d, b)

mutual

def readMessage (limit : Int) : Nat → Nat → Bytes → Except CodecError Tree
  | 0, _, _ => .error .encoding
  | fuel + 1, depth, b => do
    (Tree.checkDepth limit depth).mapError .fault
    let d ← readFields limit fuel depth {} b
    d.tree

def readFields (limit : Int) : Nat → Nat → Draft → Bytes → Except CodecError Draft
  | _, _, d, [] => .ok d
  | 0, _, _, _ => .error .encoding
  | fuel + 1, depth, d, b => do
    let (number, type, rest) ← wire (Wire.readTag? b)
    match Field.ofNumber? number with
    | none =>
      let rest ← wire (Wire.skipValue? (2 * rest.length + 2) 0 number type rest)
      readFields limit fuel depth d rest
    | some f =>
      if type ≠ f.wireType then .error (.fault (.wireType number type.number))
      else if f = .children then
        let (message, rest) ← wire (Wire.readCounted? rest)
        let child ← readMessage limit fuel (depth + 1) message
        readFields limit fuel depth { d with children := child :: d.children } rest
      else
        let (d, rest) ← readScalar d f rest
        readFields limit fuel depth d rest

end

def readProto (limit : Int) (b : Bytes) : Except CodecError Tree :=
  readMessage limit (2 * b.length + 2) 0 b

end Codec

end Arbor
