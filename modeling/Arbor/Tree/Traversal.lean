import Arbor.Tree.Basic

/-! Pre-order walks over the present nodes of a tree, as loops over pending trees. -/
namespace Arbor.Tree

mutual

/-- What a traversal still has to do: one step for each tree, absent or not. -/
def weight : Tree → Nat
  | absent => 1
  | node _ cs => weightAll cs + 1

def weightAll : List Tree → Nat
  | [] => 0
  | t :: ts => weight t + weightAll ts

end

theorem weightAll_append (ts us : List Tree) :
    weightAll (ts ++ us) = weightAll ts + weightAll us := by
  induction ts with
  | nil => simp [weightAll]
  | cons t ts ih => simp [weightAll, ih, Nat.add_assoc]

/-- The nodes met when the children of a node come next only if it passes `enter`. -/
def inspectAll (enter : Tree → Bool) : List Tree → List Tree
  | [] => []
  | absent :: pending => inspectAll enter pending
  | node h cs :: pending =>
    node h cs :: inspectAll enter (if enter (node h cs) then cs ++ pending else pending)
termination_by pending => weightAll pending
decreasing_by
  · simp [weightAll, weight]
  · split <;> simp [weightAll, weight, weightAll_append]

/-- The nodes an inspection meets: in pre-order, without those below a node that fails `enter`. -/
def inspect (enter : Tree → Bool) (t : Tree) : List Tree := inspectAll enter [t]

def nodes (t : Tree) : List Tree := inspect (fun _ => true) t

def descendants (t : Tree) : List Tree := inspectAll (fun _ => true) t.children

/-- The first `count` nodes among the pending trees and those below them; none is met after that. -/
def firstOf (count : Nat) : List Tree → List Tree
  | [] => []
  | absent :: pending => firstOf count pending
  | node h cs :: pending =>
    match count with
    | 0 => []
    | k + 1 => node h cs :: firstOf k (cs ++ pending)
termination_by pending => weightAll pending
decreasing_by
  · simp [weightAll, weight]
  · simp [weightAll, weight, weightAll_append]

def firstDescendants (count : Nat) (t : Tree) : List Tree := firstOf count t.children

def count (t : Tree) : Nat := t.nodes.length

structure Place where
  tree : Tree
  depth : Nat
  parent : Option Kind

/-- The place of each node, when the pending trees stand at given places. -/
def placesAll : List Place → List Place
  | [] => []
  | ⟨absent, _, _⟩ :: pending => placesAll pending
  | ⟨node h cs, depth, parent⟩ :: pending =>
    ⟨node h cs, depth, parent⟩ :: placesAll (cs.map (⟨·, depth + 1, some h.kind⟩) ++ pending)
termination_by pending => weightAll (pending.map Place.tree)
decreasing_by
  · simp [weightAll, weight]
  · simp [weightAll, weight, weightAll_append, Function.comp_def]

/-- The present nodes with their depths and the kinds of their parents, root first. -/
def places (t : Tree) : List Place := placesAll [⟨t, 0, none⟩]

def depth (t : Tree) : Nat := t.places.foldl (fun n p => max n (p.depth + 1)) 0

end Arbor.Tree
