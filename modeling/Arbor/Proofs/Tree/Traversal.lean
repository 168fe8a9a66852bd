import Arbor.Proofs.Tree.Validity
import Arbor.Tree.Traversal

/-! The nodes that a loop over pending trees meets are the root and those of its children. -/
namespace Arbor.Tree

theorem inspectAll_append (enter : Tree → Bool) (ts us : List Tree) :
    inspectAll enter (ts ++ us) = inspectAll enter ts ++ inspectAll enter us := by
  fun_induction inspectAll enter ts with
  | case1 => rfl
  | case2 pending ih => rw [List.cons_append, inspectAll, ih]
  | case3 h cs pending ih =>
      simp only [dite_eq_ite] at ih
      rw [List.cons_append, inspectAll, List.cons_append, ← ih]
      split
      · rw [List.append_assoc]
      · rfl

theorem mem_inspectAll_iff {enter : Tree → Bool} {ts : List Tree} {x : Tree} :
    x ∈ inspectAll enter ts ↔ ∃ t ∈ ts, x ∈ t.inspect enter := by
  induction ts with
  | nil => simp [inspectAll]
  | cons t ts ih =>
      rw [← List.singleton_append, inspectAll_append, List.mem_append, ih]
      simp [inspect]

/-- The nodes of a tree in pre-order are its root and then the nodes of its children. -/
theorem nodes_node (h : Head) (cs : List Tree) :
    (node h cs).nodes = node h cs :: cs.flatMap nodes := by
  have hall : ∀ ts : List Tree, inspectAll (fun _ => true) ts = ts.flatMap nodes := by
    intro ts
    induction ts with
    | nil => rw [inspectAll, List.flatMap_nil]
    | cons t ts ih =>
        rw [← List.singleton_append, inspectAll_append, ih, List.flatMap_append]
        simp [nodes, inspect]
  rw [nodes, inspect, inspectAll, if_pos rfl, List.append_nil, hall]

theorem mem_nodes_node {h : Head} {cs : List Tree} {x : Tree} :
    x ∈ (node h cs).nodes ↔ x = node h cs ∨ ∃ c ∈ cs, x ∈ c.nodes := by
  rw [nodes, inspect, inspectAll, List.mem_cons]
  simp only [if_true, List.append_nil, mem_inspectAll_iff, nodes]

end Arbor.Tree
