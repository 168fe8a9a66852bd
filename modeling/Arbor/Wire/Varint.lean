import Arbor.Number.Power
import Arbor.Text.Bytes

/-! Fixed width words are little-endian, and numbers have seven bits a byte, the lowest first. -/
namespace Arbor.Wire

def littleEndian : Nat → Nat → Bytes
  | 0, _ => []
  | width + 1, n => (n % 256).toUInt8 :: littleEndian width (n / 256)

def ofLittleEndian : Bytes → Nat
  | [] => 0
  | b :: rest => b.toNat + 256 * ofLittleEndian rest

def groups : Nat → Nat → Bytes
  | 0, n => [n.toUInt8]
  | fuel + 1, n =>
    if n < 128 then [n.toUInt8] else (n % 128 + 128).toUInt8 :: groups fuel (n / 128)

def varint (n : Nat) : Bytes := groups n n

def counted (b : Bytes) : Bytes := varint b.length ++ b

inductive VarintError where
  | truncated
  | overflow
  deriving DecidableEq, Repr

/-- The number made of at most `left` further groups, the first one shifted by `shift` bits. -/
def readGroups : Nat → Nat → Bytes → Except VarintError (Nat × Bytes)
  | _, _, [] => .error .truncated
  | 0, _, _ => .error .overflow
  | left + 1, shift, b :: rest =>
    if b < 128 then
      if left = 0 ∧ 1 < b then .error .overflow
      else .ok (b.toNat * 2 ^ shift, rest)
    else if left = 0 then .error .overflow
    else do
      let (n, rest) ← readGroups left (shift + 7) rest
      return ((b.toNat - 128) * 2 ^ shift + n, rest)

/-- A number of at most 64 bits in at most ten groups, and what follows it. -/
def readVarint (b : Bytes) : Except VarintError (Nat × Bytes) := readGroups 10 0 b

def readVarint? (b : Bytes) : Option (Nat × Bytes) := (readVarint b).toOption

def readCounted? (b : Bytes) : Option (Bytes × Bytes) := do
  let (n, rest) ← readVarint? b
  Bytes.splitAt? n rest

end Arbor.Wire
