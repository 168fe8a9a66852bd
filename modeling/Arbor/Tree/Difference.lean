import Arbor.Tree.Order

/-! The place at which the comparison of two trees is decided. -/
namespace Arbor

inductive Difference where
  | kind
  | payload (depth : Nat) (left right : Tree)
  | count (kind : Kind) (left right : Nat)
  /-- One conditional has a false branch and the other has none. -/
  | branch

namespace Tree

mutual

def differenceAt? (depth : Nat) : Tree → Tree → Option Difference
  | node h cs, node k ds =>
    if h.kind ≠ k.kind then some .kind
    else if h.comparePayload k ≠ .eq then some (.payload depth (node h cs) (node k ds))
    else if h.kind ≠ .ifElseStatement ∧ cs.length ≠ ds.length then
      some (.count h.kind cs.length ds.length)
    else differenceOfAll? (depth + 1) cs ds
  | _, _ => none

def differenceOfAll? (depth : Nat) : List Tree → List Tree → Option Difference
  | [], [] => none
  | t :: ts, u :: us => differenceAt? depth t u <|> differenceOfAll? depth ts us
  | _, _ => some .branch

end

def difference? (t u : Tree) : Option Difference := differenceAt? 0 t u

end Tree

end Arbor
