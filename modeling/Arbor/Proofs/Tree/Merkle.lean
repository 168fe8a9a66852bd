import Arbor.Proofs.Tree.Marked
import Arbor.Proofs.Tree.Traversal

/-! As long as the bytes of nodes can be taken apart, values tell trees apart or collide. -/
namespace Arbor

/-- A hash function and the bytes that it is given for a node. -/
structure Merkle (α : Type) where
  empty : α
  hash : Bytes → α
  /-- The bytes of a node over the values of its children. -/
  input : Head → List α → Bytes
  input_inj : ∀ {h k : Head} {bs cs : List Bytes},
    input h (bs.map hash) = input k (cs.map hash) → h.Same k ∧ bs.map hash = cs.map hash

namespace Merkle

variable {α : Type} (s : Merkle α)

def combine (h : Head) (vs : List α) : α := s.hash (s.input h vs)

def value : Tree → α := Tree.fold s.empty s.combine

def bytes : Tree → Bytes
  | .absent => []
  | .node h cs => s.input h (cs.map s.value)

/-- Nodes of two trees whose bytes differ and have one hash. -/
def Collision (a b : Tree) : Prop :=
  ∃ x ∈ a.nodes, ∃ y ∈ b.nodes, s.bytes x ≠ s.bytes y ∧ s.hash (s.bytes x) = s.hash (s.bytes y)

theorem value_eq_hash {t : Tree} (ht : t.Complete) : s.value t = s.hash (s.bytes t) := by
  cases ht with
  | node hcs =>
      rw [value, Tree.fold_node]
      rfl

theorem map_value_eq {cs : List Tree} (hcs : ∀ c ∈ cs, c.Complete) :
    cs.map s.value = (cs.map s.bytes).map s.hash := by
  rw [List.map_map]
  exact List.map_congr_left fun c hc => s.value_eq_hash (hcs c hc)

variable {s}

theorem Collision.mono {a b a' b' : Tree} (h : s.Collision a b)
    (ha : ∀ x ∈ a.nodes, x ∈ a'.nodes) (hb : ∀ y ∈ b.nodes, y ∈ b'.nodes) :
    s.Collision a' b' := by
  obtain ⟨x, hx, y, hy, hbytes⟩ := h
  exact ⟨x, ha x hx, y, hb y hy, hbytes⟩

theorem Collision.of_children {h k : Head} {cs ds : List Tree}
    (hcollision : ∃ c ∈ cs, ∃ d ∈ ds, s.Collision c d) :
    s.Collision (.node h cs) (.node k ds) := by
  obtain ⟨c, hc, d, hd, hcollision⟩ := hcollision
  refine hcollision.mono ?_ ?_
  · intro x hx
    exact Tree.mem_nodes_node.mpr (.inr ⟨c, hc, hx⟩)
  · intro y hy
    exact Tree.mem_nodes_node.mpr (.inr ⟨d, hd, hy⟩)

theorem same_or_collision_of_children {cs ds : List Tree}
    (hpair : ∀ c ∈ cs, ∀ d ∈ ds, s.value c = s.value d → c.Same d ∨ s.Collision c d)
    (hvalues : cs.map s.value = ds.map s.value) :
    List.Forall₂ Tree.Same cs ds ∨ ∃ c ∈ cs, ∃ d ∈ ds, s.Collision c d := by
  induction cs generalizing ds with
  | nil =>
      rw [List.map_nil, eq_comm, List.map_eq_nil_iff] at hvalues
      rw [hvalues]
      exact .inl .nil
  | cons c cs ih =>
      cases ds with
      | nil => cases hvalues
      | cons d ds =>
          obtain ⟨hhead, htail⟩ := List.cons.inj hvalues
          rcases hpair c List.mem_cons_self d List.mem_cons_self hhead with hsame | hcollision
          · rcases ih (fun e he e' he' => hpair e (List.mem_cons_of_mem c he) e'
              (List.mem_cons_of_mem d he')) htail with hrest | ⟨e, he, e', he', hcollision⟩
            · exact .inl (.cons hsame hrest)
            · exact .inr ⟨e, List.mem_cons_of_mem c he, e', List.mem_cons_of_mem d he', hcollision⟩
          · exact .inr ⟨c, List.mem_cons_self, d, List.mem_cons_self, hcollision⟩

/-- Trees with one value are the same, or two of their nodes collide. -/
theorem same_or_collision {t u : Tree} (ht : t.Complete) (hu : u.Complete)
    (h : s.value t = s.value u) : t.Same u ∨ s.Collision t u := by
  induction t generalizing u with
  | absent => cases ht
  | node l cs ih =>
      cases u with
      | absent => cases hu
      | node k ds =>
          rw [s.value_eq_hash ht, s.value_eq_hash hu] at h
          by_cases hbytes : s.bytes (.node l cs) = s.bytes (.node k ds)
          · simp only [bytes, s.map_value_eq ht.children, s.map_value_eq hu.children] at hbytes
            obtain ⟨hhead, hhashes⟩ := s.input_inj hbytes
            rw [← s.map_value_eq ht.children, ← s.map_value_eq hu.children] at hhashes
            have hpairs := same_or_collision_of_children
              (fun c hc d hd => ih c hc (ht.children c hc) (hu.children d hd)) hhashes
            rcases hpairs with hall | hany
            · exact .inl (.node hhead hall)
            · exact .inr (.of_children hany)
          · exact .inr ⟨_, Tree.mem_nodes_node.mpr (.inl rfl), _,
              Tree.mem_nodes_node.mpr (.inl rfl), hbytes, h⟩

end Merkle

end Arbor
