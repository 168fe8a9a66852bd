import Arbor.Tree.Outline

/-! A change replaces, inserts or deletes one node at a path. -/
namespace Arbor

inductive ChangeKind where
  | replace
  | insert
  | delete
  deriving DecidableEq, Repr

namespace ChangeKind

def name : ChangeKind → String
  | replace => "replace"
  | insert => "insert"
  | delete => "delete"

def ofOrdinal? : Int → Option ChangeKind
  | 0 => some replace
  | 1 => some insert
  | 2 => some delete
  | _ => none

/-- The name of the kind with a number, or the number in brackets. -/
def nameOfOrdinal (n : Int) : String :=
  ((ofOrdinal? n).map name).getD ("<op " ++ toString n ++ ">")

def badOrdinal (n : Int) : String := toString n ++ " is not an op"

end ChangeKind

abbrev Path := List Nat

namespace Path

/-- Indices after slashes, a lone slash being the root. -/
def textOf (indices : List Int) : Bytes :=
  if indices = [] then [47] else indices.flatMap fun i => 47 :: Bytes.ofInt i

def pointerOf (indices : List Int) : Bytes :=
  indices.flatMap fun i => Bytes.ofString "/children/" ++ Bytes.ofInt i

def text (p : Path) : Bytes := textOf (p.map Int.ofNat)

def pointer (p : Path) : Bytes := pointerOf (p.map Int.ofNat)

end Path

/-- One difference between two trees. An insertion's path is one of the new tree, the others' paths
are of the old one. -/
inductive Change where
  | replace (path : Path) (old new : Tree)
  | insert (path : Path) (new : Tree)
  | delete (path : Path) (old : Tree)

namespace Change

def kind : Change → ChangeKind
  | replace .. => .replace
  | insert .. => .insert
  | delete .. => .delete

def path : Change → Path
  | replace p _ _ => p
  | insert p _ => p
  | delete p _ => p

def old? : Change → Option Tree
  | replace _ t _ => some t
  | insert _ _ => none
  | delete _ t => some t

def new? : Change → Option Tree
  | replace _ _ t => some t
  | insert _ t => some t
  | delete _ _ => none

/-- A change in one line, unless the trees' texts have line breaks. -/
def text (c : Change) : Bytes :=
  Bytes.ofString c.kind.name ++ [32] ++ c.path.text ++ Bytes.ofString ": " ++
    match c with
    | replace _ t u => t.text ++ Bytes.ofString " -> " ++ u.text
    | insert _ t => t.text
    | delete _ t => t.text

end Change

end Arbor
