import Arbor.Proofs.Tree.Outline
import Arbor.Proofs.Tree.Shape

/-! The loops over pending trees do what recursions over the tree do. -/
namespace Arbor.Tree

mutual

/-- The nodes below a tree: each present child followed by the nodes below it. -/
def nodesBelow : Tree → List Tree
  | absent => []
  | node _ cs => nodesBelowAll cs

def nodesBelowAll : List Tree → List Tree
  | [] => []
  | c :: cs => (if c.isAbsent then [] else c :: nodesBelow c) ++ nodesBelowAll cs

end

mutual

/-- The nodes of a tree in pre-order, cut below those that fail `enter`. -/
def preorder (enter : Tree → Bool) : Tree → List Tree
  | absent => []
  | node h cs => node h cs :: if enter (node h cs) then preorderAll enter cs else []

def preorderAll (enter : Tree → Bool) : List Tree → List Tree
  | [] => []
  | t :: ts => preorder enter t ++ preorderAll enter ts

end

theorem inspectAll_eq_preorderAll (enter : Tree → Bool) (ts : List Tree) :
    inspectAll enter ts = preorderAll enter ts := by
  have happend : ∀ ts us, preorderAll enter (ts ++ us) =
      preorderAll enter ts ++ preorderAll enter us := by
    intro ts us
    induction ts with
    | nil => rfl
    | cons t ts ih => rw [List.cons_append, preorderAll, ih, preorderAll, List.append_assoc]
  fun_induction inspectAll enter ts with
  | case1 => rfl
  | case2 pending ih => rw [ih, preorderAll, preorder, List.nil_append]
  | case3 h cs pending ih =>
      simp only [dite_eq_ite] at ih
      rw [ih, preorderAll, preorder, List.cons_append]
      split
      · rw [happend]
      · rw [List.nil_append]

theorem inspect_eq_preorder (enter : Tree → Bool) (t : Tree) :
    t.inspect enter = t.preorder enter := by
  rw [inspect, inspectAll_eq_preorderAll, preorderAll, preorderAll, List.append_nil]

theorem preorderAll_eq_nodesBelowAll {cs : List Tree}
    (hcs : ∀ c ∈ cs, c.preorder (fun _ => true) = if c.isAbsent then [] else c :: c.nodesBelow) :
    preorderAll (fun _ => true) cs = nodesBelowAll cs := by
  induction cs with
  | nil => rfl
  | cons c cs ih =>
      obtain ⟨hc, hcs⟩ := List.forall_mem_cons.mp hcs
      rw [preorderAll, nodesBelowAll, hc, ih hcs]

/-- Where every node is entered, a present tree comes before the nodes below it. -/
theorem preorder_eq (t : Tree) :
    t.preorder (fun _ => true) = if t.isAbsent then [] else t :: t.nodesBelow := by
  induction t with
  | absent => rfl
  | node h cs ih =>
      rw [preorder, if_pos rfl, preorderAll_eq_nodesBelowAll ih]
      rfl

theorem descendants_eq_nodesBelow (t : Tree) : t.descendants = t.nodesBelow := by
  rw [descendants, inspectAll_eq_preorderAll, preorderAll_eq_nodesBelowAll fun c _ => c.preorder_eq]
  cases t <;> rfl

/-- A traversal that is stopped has met the first of the nodes. -/
theorem firstOf_eq_take (count : Nat) (ts : List Tree) :
    firstOf count ts = (inspectAll (fun _ => true) ts).take count := by
  fun_induction firstOf count ts with
  | case1 => rw [inspectAll, List.take_nil]
  | case2 count pending ih => rw [ih, inspectAll]
  | case3 h cs pending => rw [List.take_zero]
  | case4 h cs pending count ih => rw [ih, inspectAll, if_pos rfl, List.take_succ_cons]

theorem firstDescendants_eq_take (count : Nat) (t : Tree) :
    t.firstDescendants count = t.nodesBelow.take count := by
  rw [firstDescendants, firstOf_eq_take, ← descendants_eq_nodesBelow, descendants]

section Choices

/-- Whether the children of a node come next, as it may depend on the nodes met before. -/
abbrev Choice := List Tree → Tree → Bool

/-- The nodes met, after some have been met, when a choice is made at each of them. -/
def inspectAfter (enter : Choice) (met : List Tree) : List Tree → List Tree
  | [] => met
  | absent :: pending => inspectAfter enter met pending
  | node h cs :: pending =>
    inspectAfter enter (met ++ [node h cs])
      (if enter met (node h cs) then cs ++ pending else pending)
termination_by pending => weightAll pending
decreasing_by
  · simp [weightAll, weight]
  · split <;> simp [weightAll, weight, weightAll_append]

mutual

/-- The nodes met up to the end of a tree, after some have been met before it. -/
def preorderAfter (enter : Choice) (met : List Tree) : Tree → List Tree
  | absent => met
  | node h cs =>
    if enter met (node h cs) then preorderAllAfter enter (met ++ [node h cs]) cs
    else met ++ [node h cs]

def preorderAllAfter (enter : Choice) (met : List Tree) : List Tree → List Tree
  | [] => met
  | t :: ts => preorderAllAfter enter (preorderAfter enter met t) ts

end

theorem inspectAfter_eq (enter : Choice) (met ts : List Tree) :
    inspectAfter enter met ts = preorderAllAfter enter met ts := by
  have happend : ∀ met ts us, preorderAllAfter enter met (ts ++ us) =
      preorderAllAfter enter (preorderAllAfter enter met ts) us := by
    intro met ts us
    induction ts generalizing met with
    | nil => rfl
    | cons t ts ih => rw [List.cons_append, preorderAllAfter, ih, preorderAllAfter]
  fun_induction inspectAfter enter met ts with
  | case1 => rfl
  | case2 met pending ih => rw [ih, preorderAllAfter, preorderAfter]
  | case3 met h cs pending ih =>
      simp only [dite_eq_ite] at ih
      rw [ih, preorderAllAfter, preorderAfter]
      split
      · rw [happend]
      · rfl

/-- Choices that depend on the node alone are those of an inspection. -/
theorem inspectAfter_const (enter : Tree → Bool) (met ts : List Tree) :
    inspectAfter (fun _ => enter) met ts = met ++ inspectAll enter ts := by
  fun_induction inspectAll enter ts generalizing met with
  | case1 => rw [inspectAfter, List.append_nil]
  | case2 pending ih => rw [inspectAfter, ih]
  | case3 h cs pending ih =>
      simp only [dite_eq_ite] at ih
      rw [inspectAfter, ih, List.append_assoc, List.singleton_append]

end Choices

section Measures

def size : Tree → Nat := fold 0 fun _ ns => ns.sum + 1

theorem size_node (h : Head) (cs : List Tree) : (node h cs).size = (cs.map size).sum + 1 :=
  fold_node _ _ h cs

theorem count_eq_size (t : Tree) : t.count = t.size := by
  induction t with
  | absent => simp [count, nodes, inspect, inspectAll, size, fold]
  | node h cs ih =>
      have hcs : cs.map (List.length ∘ nodes) = cs.map size := List.map_congr_left ih
      rw [count, nodes_node, List.length_cons, List.length_flatMap, size_node]
      exact congrArg (List.sum · + 1) hcs

theorem weightAll_reverse (ts : List Tree) : weightAll ts.reverse = weightAll ts := by
  induction ts with
  | nil => rfl
  | cons t ts ih =>
      rw [List.reverse_cons, weightAll_append, ih, weightAll, weightAll, weightAll, Nat.add_zero,
        Nat.add_comm]

/-- The greatest depth met, when each of the pending trees stands at a depth. The last child of a
node is taken first. -/
def deepest (greatest : Nat) : List (Tree × Nat) → Nat
  | [] => greatest
  | (absent, _) :: pending => deepest greatest pending
  | (node _ cs, depth) :: pending =>
    deepest (max greatest depth) ((cs.map (·, depth + 1)).reverse ++ pending)
termination_by pending => weightAll (pending.map Prod.fst)
decreasing_by
  · simp [weightAll, weight]
  · simp [weightAll, weight, weightAll_append, weightAll_reverse, Function.comp_def]

theorem levels_node_le_iff_present {h : Head} {cs : List Tree} {m : Int} :
    ((node h cs).levels : Int) ≤ m ↔
      1 ≤ m ∧ ∀ c ∈ cs, c ≠ .absent → (c.levels : Int) + 1 ≤ m := by
  rw [levels_node_le_iff]
  refine and_congr_right fun hone => forall₂_congr fun c _ => ?_
  cases c with
  | absent => simpa [levels, fold] using hone
  | node l ds => simp

theorem deepest_le_iff {greatest n : Nat} {pending : List (Tree × Nat)} :
    deepest greatest pending ≤ n ↔
      greatest ≤ n ∧ ∀ p ∈ pending, p.1 ≠ .absent → ((p.1.levels : Int) ≤ n + 1 - p.2) := by
  fun_induction deepest greatest pending with
  | case1 greatest => simp
  | case2 greatest depth pending ih => simp [ih]
  | case3 greatest h cs depth pending ih =>
      simp only [List.map_subtype, List.unattach_attach] at ih
      have hshift : ∀ c : Tree, ((c.levels : Int) ≤ n + 1 - (depth + 1 : Nat)) ↔
          (c.levels : Int) + 1 ≤ n + 1 - depth := by omega
      rw [ih, List.forall_mem_append, List.forall_mem_cons, Nat.max_le, levels_node_le_iff_present]
      simp only [List.mem_reverse, List.forall_mem_map, hshift]
      constructor
      · rintro ⟨⟨hgreatest, hdepth⟩, hcs, hpending⟩
        exact ⟨hgreatest, fun _ => ⟨by omega, hcs⟩, hpending⟩
      · rintro ⟨hgreatest, hnode, hpending⟩
        obtain ⟨hdepth, hcs⟩ := hnode (by simp)
        exact ⟨⟨hgreatest, by omega⟩, hcs, hpending⟩

/-- The depth does not depend on which of the children is taken first. -/
theorem deepest_eq_levels (t : Tree) : deepest 0 [(t, 1)] = t.levels := by
  have hle : ∀ n, deepest 0 [(t, 1)] ≤ n ↔ t.levels ≤ n := by
    intro n
    rw [deepest_le_iff]
    cases t with
    | absent => simp [levels, fold]
    | node h cs => simp
  exact Nat.le_antisymm ((hle _).mpr (Nat.le_refl _)) ((hle _).mp (Nat.le_refl _))

end Measures

/-- The traversals of a tree, present or absent and with absent trees anywhere in it, are
recursions. The descendants are the present children, each followed by its own descendants, and a
traversal of them that is stopped has met the first of them. An inspection makes its choice at the
nodes in pre-order, each once, without those below a node that is not entered, and so it does when
its choices depend on the nodes met before. The count is the number of present nodes and the depth
that of the levels, from whichever end the children are taken. The outline has the lines of the
nodes in pre-order, each with two blanks for a level, its label and a line end. -/
theorem traversals_recursive (t : Tree) :
    t.descendants = t.nodesBelow ∧
      (∀ count, t.firstDescendants count = t.nodesBelow.take count) ∧
      (∀ enter, t.inspect enter = t.preorder enter) ∧
      (∀ enter : Choice, inspectAfter enter [] [t] = t.preorderAfter enter []) ∧
      (∀ enter, inspectAfter (fun _ => enter) [] [t] = t.inspect enter) ∧
      t.count = t.size ∧
      t.depth = t.levels ∧ deepest 0 [(t, 1)] = t.levels ∧
      t.outline = t.outlineAt 0 := by
  refine ⟨descendants_eq_nodesBelow t, fun count => firstDescendants_eq_take count t,
    fun enter => inspect_eq_preorder enter t, ?_, ?_, count_eq_size t, depth_eq_levels t,
    deepest_eq_levels t, outline_eq t⟩
  · intro enter
    rw [inspectAfter_eq, preorderAllAfter, preorderAllAfter]
  · intro enter
    rw [inspectAfter_const, List.nil_append, inspect]

end Arbor.Tree
