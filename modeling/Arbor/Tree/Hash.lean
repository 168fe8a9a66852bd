import Arbor.Tree.Marked

/-! A change to a node shows in the hashes of the node and its ancestors only. -/
namespace Arbor

abbrev Hasher := Bytes → UInt64

namespace Head

def hashInput (h : Head) (children : List UInt64) : Bytes :=
  Wire.littleEndian 2 h.kind.ordinal ++ h.payloadBytes ++
    children.flatMap fun c => Wire.littleEndian 8 c.toNat

end Head

namespace Tree

def hashes (hasher : Hasher) (limit : Int) (t : Tree) : Except Fault (Marked UInt64) :=
  t.markAt (fun h cs => hasher (h.hashInput cs)) .hashing limit 0

def hash (hasher : Hasher) (limit : Int) (t : Tree) : Except Fault UInt64 :=
  (t.hashes hasher limit).map Marked.value

end Tree

/-- The Fowler, Noll and Vo hash: each byte is mixed in before a multiplication. -/
def fnv1a : Hasher := fun b =>
  b.foldl (fun h x => (h ^^^ x.toUInt64) * 0x100000001B3) 0xCBF29CE484222325

end Arbor
