import Arbor.Tree.Basic

/-! Kind, payload, number of children, children; the size of the result tells what differed. -/
namespace Arbor

def compareBool : Bool → Bool → Ordering
  | false, true => .lt
  | true, false => .gt
  | _, _ => .eq

def Head.comparePayload : Head → Head → Ordering
  | .integer x, .integer y => if x < y then .lt else if y < x then .gt else .eq
  | .float x, .float y => x.compare y
  | .boolean x, .boolean y => compareBool x y
  | .string x, .string y => compareBytes x y
  | .identifier x, .identifier y => compareBytes x y
  | .unary x s, .unary y t => (compareBytes x y).then (compareBool s t)
  | .binary x, .binary y => compareBytes x y
  | .member x, .member y => compareBytes x y
  | _, _ => .eq

/-- A sign of the difference. -/
def Ordering.sign : Ordering → Int
  | .lt => -1
  | .eq => 0
  | .gt => 1

namespace Tree

/-- The ordinal of a tree's kind, zero for an absent one. -/
def ordinal : Tree → Int
  | absent => 0
  | node h _ => h.kind.ordinal

def checkBoth (k : Kind) (cs ds : List Tree) : Except Fault Unit :=
  if k = .ifElseStatement then
    match check k cs, check k ds with
    | .ok (), .ok () => .ok ()
    | _, _ => .error .bareConditional
  else if !k.admits cs.length then .error (.childCount k cs.length)
  else if !k.admits ds.length then .error (.childCount k ds.length)
  else do
    checkChildren k 0 cs
    checkChildren k 0 ds

mutual

/-- The difference of two trees whose roots stand at a depth. -/
def compareAt (limit : Int) (depth : Nat) : Tree → Tree → Except Fault Int
  | node h cs, node k ds => do
    checkDepth limit depth
    if h.kind ≠ k.kind then
      return (h.kind.ordinal : Int) - k.kind.ordinal
    else
      match h.comparePayload k with
      | .lt => return -1
      | .gt => return 1
      | .eq =>
        checkBoth h.kind cs ds
        if h.kind ≠ .ifElseStatement ∧ cs.length ≠ ds.length then
          return (cs.length : Int) - ds.length
        else compareAll limit (depth + 1) cs ds
  | _, _ => .error (.absentTree .comparing)

/-- The first difference of two lists; a tree that one of them lacks counts by its ordinal. -/
def compareAll (limit : Int) (depth : Nat) : List Tree → List Tree → Except Fault Int
  | [], [] => .ok 0
  | [], u :: _ => .ok (-u.ordinal)
  | t :: _, [] => .ok t.ordinal
  | t :: ts, u :: us => do
    let d ← compareAt limit depth t u
    if d ≠ 0 then return d else compareAll limit depth ts us

end

/-- Zero for structurally equal trees, else a difference whose sign orders them. -/
def compare (limit : Int) (t u : Tree) : Except Fault Int := compareAt limit 0 t u

end Tree

end Arbor
