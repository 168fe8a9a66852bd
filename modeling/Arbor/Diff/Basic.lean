import Arbor.Diff.Align
import Arbor.Diff.Change
import Arbor.Tree.Hash
import Arbor.Tree.Order
import Arbor.Tree.Traversal

/-! Differences of trees; hashes only steer the alignment and save comparisons. -/
namespace Arbor

inductive Match (α : Type) where
  | pair (i : Nat) (a : α) (j : Nat) (b : α)
  | delete (i : Nat) (a : α)
  | insert (j : Nat) (b : α)

namespace Match

/-- Items with the places that they have from `n` on. -/
def numbered (n : Nat) : List α → List (Nat × α)
  | [] => []
  | a :: as => (n, a) :: numbered (n + 1) as

def pairs : List (Nat × α) → List (Nat × α) → List (Match α)
  | (i, a) :: as, (j, b) :: bs => pair i a j b :: pairs as bs
  | _, _ => []

def deletions (as : List (Nat × α)) : List (Match α) := as.map fun (i, a) => delete i a

def insertions (bs : List (Nat × α)) : List (Match α) := bs.map fun (j, b) => insert j b

def pairsThenRest (as bs : List (Nat × α)) : List (Match α) :=
  pairs as bs ++ deletions (as.drop bs.length) ++ insertions (bs.drop as.length)

/-- The matches of two lists along the lengths of a script; `deleted` waits for an insertion. -/
def along (deleted as bs : List (Nat × α)) : List (Move × Nat) → List (Match α)
  | [] => deletions deleted
  | (.delete, n) :: rest => along (deleted ++ as.take n) (as.drop n) bs rest
  | (.insert, n) :: rest =>
    let new := bs.take n
    pairs deleted new ++ insertions (new.drop deleted.length) ++ deletions (deleted.drop n) ++
      along [] as (bs.drop n) rest
  | (.keep, n) :: rest =>
    deletions deleted ++ pairs (as.take n) (bs.take n) ++ along [] (as.drop n) (bs.drop n) rest

end Match

/-- A way to align two lists of hashes: what is done with how many items. -/
abbrev Aligner := List UInt64 → List UInt64 → List (Move × Nat)

def Aligner.short : Aligner := fun a b => (Align.script a b).map fun e => (e.move, e.items.length)

namespace Marked

/-- Whether two trees are equal; equal trees have equal hashes. -/
def same (limit : Int) (f t : Marked UInt64) : Bool :=
  f.value = t.value && (f.tree.compare limit t.tree).toOption = some 0

/-- Whether the nodes themselves agree, whatever their children. -/
def agrees (f t : Marked UInt64) : Bool :=
  f.head.kind = t.head.kind && f.head.payloadBytes = t.head.payloadBytes

def matchChildren (align : Aligner) (f t : Marked UInt64) : List (Match (Marked UInt64)) :=
  let as := Match.numbered 0 f.children
  let bs := Match.numbered 0 t.children
  if f.children.length ≠ t.children.length ∧
      (f.head.kind = .blockStatement ∨ f.head.kind = .invocation) then
    Match.along [] as bs (align (f.children.map value) (t.children.map value))
  else Match.pairsThenRest as bs

/-- The changes between two nodes at their paths; `fuel` exceeds the depth of the first. -/
def changes (align : Aligner) (limit : Int) : Nat → Path → Path → Marked UInt64 → Marked UInt64 →
    List Change
  | 0, p, _, f, t => [.replace p f.tree t.tree]
  | fuel + 1, p, q, f, t =>
    if f.same limit t then []
    else if !f.agrees t then [.replace p f.tree t.tree]
    else (f.matchChildren align t).flatMap fun
      | .pair i a j b => changes align limit fuel (p ++ [i]) (q ++ [j]) a b
      | .delete i a => [.delete (p ++ [i]) a.tree]
      | .insert j b => [.insert (q ++ [j]) b.tree]

end Marked

namespace Tree

/-- The changes that turn one tree into another, with any aligner and hash function. -/
def diffWith (align : Aligner) (hasher : Hasher) (limit : Int) (old new : Tree) :
    Except Fault (List Change) := do
  old.validate limit
  new.validate limit
  let f ← old.hashes hasher limit
  let t ← new.hashes hasher limit
  return Marked.changes align limit (old.depth + 1) [] [] f t

/-- The changes that turn one tree into another, in pre-order. -/
def diff (limit : Int) (old new : Tree) : Except Fault (List Change) :=
  diffWith .short fnv1a limit old new

end Tree

end Arbor
