import Arbor.Diff.Change
import Arbor.Proofs.Tree.Shape

/-! The subtree at a path and the tree with another one in its place. -/
namespace Arbor

namespace Tree

/-- The subtree at a path, if the path stays in the tree. -/
def at? : Tree → Path → Option Tree
  | t, [] => some t
  | t, i :: p => t.children[i]?.bind fun c => c.at? p

def replaceAt : Tree → Path → Tree → Tree
  | _, [], new => new
  | absent, _ :: _, _ => absent
  | node h cs, i :: p, new => node h (cs.modify i fun c => c.replaceAt p new)

variable {t u new : Tree} {p q r : Path}

theorem at?_cons_eq_some_iff {i : Nat} {x : Tree} :
    t.at? (i :: p) = some x ↔ ∃ c, t.children[i]? = some c ∧ c.at? p = some x := by
  rw [at?, Option.bind_eq_some_iff]

theorem at?_append (t : Tree) (p q : Path) : t.at? (p ++ q) = (t.at? p).bind fun c => c.at? q := by
  induction p generalizing t with
  | nil => rfl
  | cons i p ih =>
      rw [List.cons_append, at?, at?, Option.bind_assoc]
      exact Option.bind_congr fun c _ => ih c

theorem children_replaceAt_cons (t : Tree) (i : Nat) (p : Path) (new : Tree) :
    (t.replaceAt (i :: p) new).children = t.children.modify i fun c => c.replaceAt p new := by
  cases t with
  | absent => exact (List.modify_nil _ _).symm
  | node h cs => rfl

/-- A node on the way to a replacement holds the replacement. -/
theorem at?_replaceAt_append (t : Tree) (q r : Path) (new : Tree) :
    (t.replaceAt (q ++ r) new).at? q = (t.at? q).map fun x => x.replaceAt r new := by
  induction q generalizing t with
  | nil => rfl
  | cons i q ih =>
      rw [List.cons_append, at?, children_replaceAt_cons, List.getElem?_modify_eq, at?]
      cases t.children[i]? with
      | none => rfl
      | some c => exact ih c

theorem at?_replaceAt_self {old : Tree} (h : t.at? p = some old) :
    (t.replaceAt p new).at? p = some new := by
  have happend := at?_replaceAt_append t p [] new
  rw [List.append_nil, h] at happend
  exact happend

theorem at?_replaceAt_of_apart (hqp : ¬ q <+: p) (hpq : ¬ p <+: q) :
    (t.replaceAt p new).at? q = t.at? q := by
  induction p generalizing t q with
  | nil => exact absurd (List.nil_prefix) hpq
  | cons i p ih =>
      cases q with
      | nil => exact absurd (List.nil_prefix) hqp
      | cons j q =>
          rw [at?, at?, children_replaceAt_cons]
          by_cases hij : i = j
          · subst hij
            rw [List.getElem?_modify_eq]
            cases t.children[i]? with
            | none => rfl
            | some c =>
                refine ih ?_ ?_
                · intro hprefix
                  exact hqp (List.cons_prefix_cons.mpr ⟨rfl, hprefix⟩)
                · intro hprefix
                  exact hpq (List.cons_prefix_cons.mpr ⟨rfl, hprefix⟩)
          · rw [List.getElem?_modify_ne _ _ hij]

theorem mem_nodes_of_at? (h : t.at? q = some u) : ∀ x ∈ u.nodes, x ∈ t.nodes := by
  induction q generalizing t with
  | nil =>
      cases h
      intro x hx
      exact hx
  | cons i q ih =>
      obtain ⟨c, hc, hu⟩ := at?_cons_eq_some_iff.mp h
      cases t with
      | absent => cases hc
      | node l cs =>
          intro x hx
          exact mem_nodes_node.mpr (.inr ⟨c, List.mem_of_getElem? hc, ih hu x hx⟩)

theorem validateAt_of_at? {limit : Int} {depth : Nat} (ht : t.validateAt limit depth = .ok ())
    (h : t.at? q = some u) : u.validateAt limit (depth + q.length) = .ok () := by
  induction q generalizing t depth with
  | nil =>
      cases h
      exact ht
  | cons i q ih =>
      obtain ⟨c, hc, hu⟩ := at?_cons_eq_some_iff.mp h
      cases t with
      | absent => cases hc
      | node l cs =>
          obtain ⟨-, -, hcs⟩ := validateAt_node_iff.mp ht
          have hvalid := ih (hcs c (List.mem_of_getElem? hc)) hu
          rwa [List.length_cons, Nat.add_comm q.length, ← Nat.add_assoc]

/-- A subtree has a level less for each step of the way to it. -/
theorem levels_of_at? (h : t.at? q = some u) : u.levels + q.length ≤ t.levels := by
  induction q generalizing t with
  | nil =>
      cases h
      exact Nat.le_refl _
  | cons i q ih =>
      obtain ⟨c, hc, hu⟩ := at?_cons_eq_some_iff.mp h
      cases t with
      | absent => cases hc
      | node l cs =>
          have hself : ((node l cs).levels : Int) ≤ (node l cs).levels := Int.le_refl _
          have hchild := (levels_node_le_iff.mp hself).2 c (List.mem_of_getElem? hc)
          have hbelow := ih hu
          rw [List.length_cons]
          omega

theorem validate_of_validateAt {limit : Int} {depth : Nat}
    (ht : t.validateAt limit depth = .ok ()) : t.validate limit = .ok () := by
  have htyped := typed_of_validateAt ht
  obtain ⟨hcomplete, hlevels⟩ := htyped.validateAt_eq_ok_iff.mp ht
  exact htyped.validateAt_eq_ok_iff.mpr ⟨hcomplete, by omega⟩

end Tree

theorem getElem?_of_forall₂ {α β : Type} {R : α → β → Prop} {as : List α} {bs : List β}
    (h : List.Forall₂ R as bs) (i : Nat) :
    (as[i]? = none ∧ bs[i]? = none) ∨ ∃ a b, as[i]? = some a ∧ bs[i]? = some b ∧ R a b := by
  induction h generalizing i with
  | nil => exact .inl ⟨rfl, rfl⟩
  | @cons a b as bs hab htail ih =>
      cases i with
      | zero => exact .inr ⟨a, b, rfl, rfl, hab⟩
      | succ i => simpa only [List.getElem?_cons_succ] using ih i

theorem Tree.Same.at? {t u x : Tree} {p : Path} (htu : t.Same u) (hx : t.at? p = some x) :
    ∃ y, u.at? p = some y ∧ x.Same y := by
  induction p generalizing t u with
  | nil =>
      cases hx
      exact ⟨u, rfl, htu⟩
  | cons i p ih =>
      obtain ⟨c, hc, hcx⟩ := at?_cons_eq_some_iff.mp hx
      cases htu with
      | absent => cases hc
      | node hhead hcs =>
          rcases getElem?_of_forall₂ hcs i with ⟨hnone, -⟩ | ⟨a, b, ha, hb, hab⟩
          · cases hnone.symm.trans hc
          · cases ha.symm.trans hc
            obtain ⟨y, hy, hxy⟩ := ih hab hcx
            exact ⟨y, at?_cons_eq_some_iff.mpr ⟨b, hb, hy⟩, hxy⟩

namespace Marked

variable {α : Type}

def at? : Marked α → Path → Option (Marked α)
  | m, [] => some m
  | m, i :: p => m.children[i]?.bind fun c => c.at? p

def valueAt? (m : Marked α) (p : Path) : Option α := (m.at? p).map value

theorem valueAt?_cons (m : Marked α) (i : Nat) (p : Path) :
    m.valueAt? (i :: p) = m.children[i]?.bind fun c => c.valueAt? p := by
  rw [valueAt?, at?, Option.map_bind]
  rfl

theorem at?_tree (m : Marked α) (p : Path) : m.tree.at? p = (m.at? p).map tree := by
  induction p generalizing m with
  | nil => rfl
  | cons i p ih =>
      rw [m.tree_eq, Tree.at?, Tree.children, List.getElem?_map, at?]
      cases m.children[i]? with
      | none => rfl
      | some c => exact ih c

end Marked

namespace Tree

variable {α : Type} {combine : Head → List α → α} {operation : Operation}
variable {limit : Int} {depth : Nat}

theorem forall₂_of_markAll {cs : List Tree} {ms : List (Marked α)}
    (h : markAll combine operation limit depth cs = .ok ms) :
    List.Forall₂ (fun c m => markAt combine operation limit depth c = .ok m) cs ms := by
  induction cs generalizing ms with
  | nil =>
      cases h
      exact .nil
  | cons c cs ih =>
      rw [markAll] at h
      obtain ⟨m, hm, h⟩ := bind_eq_ok_iff.mp h
      obtain ⟨ms', hms, h⟩ := bind_eq_ok_iff.mp h
      cases h
      exact .cons hm (ih hms)

/-- A pass gives the node at a path the value of the subtree there. -/
theorem valueAt?_of_markAt (empty : α) {t : Tree} {m : Marked α}
    (h : markAt combine operation limit depth t = .ok m) (p : Path) :
    m.valueAt? p = (t.at? p).map (fold empty combine) := by
  induction p generalizing t m depth with
  | nil => exact congrArg some (markAt_eq_ok empty h).2
  | cons i p ih =>
      cases t with
      | absent => cases h
      | node l cs =>
          rw [markAt, check_bind_eq_ok_iff, check_bind_eq_ok_iff] at h
          obtain ⟨-, -, h⟩ := h
          obtain ⟨ms, hms, h⟩ := bind_eq_ok_iff.mp h
          cases h
          rw [Marked.valueAt?_cons, at?, Option.map_bind, Marked.children, children]
          rcases getElem?_of_forall₂ (forall₂_of_markAll hms) i with
            ⟨hc, hm⟩ | ⟨c, m, hc, hm, hmark⟩
          · rw [hc, hm]
            rfl
          · rw [hc, hm]
            exact ih hmark

theorem value_of_markAt (empty : α) {t : Tree} {m x : Marked α} {p : Path}
    (hm : markAt combine operation limit depth t = .ok m) (hx : m.at? p = some x) :
    x.value = x.tree.fold empty combine := by
  have hvalue := valueAt?_of_markAt empty hm p
  rw [← (markAt_eq_ok empty hm).1, Marked.at?_tree, Marked.valueAt?, hx] at hvalue
  exact Option.some.inj hvalue

end Tree

end Arbor
