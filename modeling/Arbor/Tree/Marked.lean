import Arbor.Tree.Basic
import Arbor.Wire.Varint

/-! A value at each node, from its head and the values of its children, in one pass. -/
namespace Arbor

inductive Marked (α : Type) where
  | node (value : α) (head : Head) (children : List (Marked α))

namespace Marked

def value : Marked α → α
  | node v _ _ => v

def children : Marked α → List (Marked α)
  | node _ _ cs => cs

def head : Marked α → Head
  | node _ h _ => h

mutual

def tree : Marked α → Tree
  | node _ h cs => .node h (trees cs)

def trees : List (Marked α) → List Tree
  | [] => []
  | m :: ms => tree m :: trees ms

end

mutual

def valuesOnto (rest : List α) : Marked α → List α
  | node v _ cs => v :: valuesAllOnto rest cs

def valuesAllOnto (rest : List α) : List (Marked α) → List α
  | [] => rest
  | m :: ms => valuesOnto (valuesAllOnto rest ms) m

end

def values (m : Marked α) : List α := valuesOnto [] m

mutual

def finishedOnto (rest : List (Head × α)) : Marked α → List (Head × α)
  | node v h cs => finishedAllOnto ((h, v) :: rest) cs

def finishedAllOnto (rest : List (Head × α)) : List (Marked α) → List (Head × α)
  | [] => rest
  | m :: ms => finishedOnto (finishedAllOnto rest ms) m

end

/-- The heads and values of all nodes in the order in which the pass finishes them. -/
def finished (m : Marked α) : List (Head × α) := finishedOnto [] m

end Marked

namespace Tree

mutual

/-- The tree with a value at every node, if it is well formed; the root stands at a depth. -/
def markAt (combine : Head → List α → α) (operation : Operation) (limit : Int) (depth : Nat) :
    Tree → Except Fault (Marked α)
  | absent => .error (.absentTree operation)
  | node h cs => do
    checkDepth limit depth
    check h.kind cs
    let ms ← markAll combine operation limit (depth + 1) cs
    return .node (combine h (ms.map Marked.value)) h ms

def markAll (combine : Head → List α → α) (operation : Operation) (limit : Int) (depth : Nat) :
    List Tree → Except Fault (List (Marked α))
  | [] => .ok []
  | t :: ts => do
    let m ← markAt combine operation limit depth t
    let ms ← markAll combine operation limit depth ts
    return m :: ms

end

end Tree

namespace Head

/-- A payload in bytes, the same for payloads that compare as equal. -/
def payloadBytes : Head → Bytes
  | integer v => Wire.littleEndian 8 v.toUInt64.toNat
  | float v => Wire.littleEndian 8 v.canonicalBits.toNat
  | boolean v => [if v then 1 else 0]
  | string v => Wire.counted v
  | identifier n => Wire.counted n
  | unary op trailing => Wire.counted op ++ [if trailing then 1 else 0]
  | binary op => Wire.counted op
  | member n => Wire.counted n
  | _ => []

end Head

end Arbor
