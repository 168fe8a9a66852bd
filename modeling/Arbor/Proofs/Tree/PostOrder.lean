import Mathlib.Data.List.Nodup
import Arbor.Proofs.Tree.Subtree

/-! The paths of a tree with those to the children of a node in front of the one to the node. -/
namespace Arbor.Tree

mutual

/-- The paths to the nodes of a tree, absent ones included, children before parents. -/
def postorder : Tree → List Path
  | absent => [[]]
  | node _ cs => postorderAll 0 cs ++ [[]]

def postorderAll (i : Nat) : List Tree → List Path
  | [] => []
  | t :: ts => (postorder t).map (i :: ·) ++ postorderAll (i + 1) ts

end

theorem mem_postorderAll_iff {i : Nat} {ts : List Tree} {p : Path} :
    p ∈ postorderAll i ts ↔ ∃ j t q, ts[j]? = some t ∧ q ∈ t.postorder ∧ p = (i + j) :: q := by
  induction ts generalizing i with
  | nil => simp [postorderAll]
  | cons t ts ih =>
      rw [postorderAll, List.mem_append, List.mem_map, ih]
      constructor
      · rintro (⟨q, hq, rfl⟩ | ⟨j, u, q, hu, hq, rfl⟩)
        · exact ⟨0, t, q, rfl, hq, rfl⟩
        · exact ⟨j + 1, u, q, hu, hq, by rw [Nat.add_assoc, Nat.add_comm 1 j]⟩
      · rintro ⟨j, u, q, hu, hq, rfl⟩
        cases j with
        | zero =>
            cases hu
            exact .inl ⟨q, hq, rfl⟩
        | succ j => exact .inr ⟨j, u, q, hu, hq, by rw [Nat.add_assoc, Nat.add_comm 1 j]⟩

theorem nil_mem_postorder (t : Tree) : [] ∈ t.postorder := by
  cases t with
  | absent => exact List.mem_singleton.mpr rfl
  | node h cs => exact List.mem_append_right _ (List.mem_singleton.mpr rfl)

theorem mem_postorder_of_at? {t x : Tree} {p : Path} (h : t.at? p = some x) : p ∈ t.postorder := by
  induction p generalizing t with
  | nil => exact nil_mem_postorder t
  | cons i p ih =>
      obtain ⟨c, hc, hx⟩ := at?_cons_eq_some_iff.mp h
      cases t with
      | absent => cases hc
      | node l cs =>
          rw [postorder, List.mem_append, mem_postorderAll_iff]
          exact .inl ⟨i, c, p, hc, ih hx, by rw [Nat.zero_add]⟩

theorem nodup_postorderAll {i : Nat} {ts : List Tree} (hts : ∀ t ∈ ts, t.postorder.Nodup) :
    (postorderAll i ts).Nodup := by
  induction ts generalizing i with
  | nil => exact List.nodup_nil
  | cons t ts ih =>
      obtain ⟨ht, hts⟩ := List.forall_mem_cons.mp hts
      rw [postorderAll, List.nodup_append]
      refine ⟨ht.map (List.cons_injective), ih hts, ?_⟩
      -- the paths to the first child begin with its index, the others with a greater one
      intro p hp q hq hpq
      obtain ⟨p', -, rfl⟩ := List.mem_map.mp hp
      obtain ⟨j, u, q', -, -, rfl⟩ := mem_postorderAll_iff.mp hq
      have hindex := List.head_eq_of_cons_eq hpq
      omega

theorem nodup_postorder (t : Tree) : t.postorder.Nodup := by
  induction t with
  | absent => exact List.nodup_singleton []
  | node h cs ih =>
      rw [postorder, List.nodup_append]
      refine ⟨nodup_postorderAll ih, List.nodup_singleton [], ?_⟩
      intro p hp q hq hpq
      obtain ⟨j, u, p', -, -, rfl⟩ := mem_postorderAll_iff.mp hp
      cases hpq.trans (List.mem_singleton.mp hq)

end Arbor.Tree
