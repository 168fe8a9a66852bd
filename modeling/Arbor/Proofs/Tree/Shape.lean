import Arbor.Proofs.Tree.Marked
import Arbor.Proofs.Tree.Traversal

/-! Validity is arity, presence of the children, and the number of levels. -/
namespace Arbor.Tree

/-- What the place of a child may hold: a node of its family or nothing. An absent false branch
has no place of its own. -/
def Fits (k : Kind) (i : Nat) : Tree → Prop
  | absent => ¬ (k = .ifElseStatement ∧ i = 2)
  | node h _ => h.kind.family = k.slot i

instance (k : Kind) (i : Nat) : (t : Tree) → Decidable (Fits k i t)
  | absent => inferInstanceAs (Decidable (¬ _))
  | node _ _ => inferInstanceAs (Decidable (_ = _))

/-- A tree as nodes can be put together, with places left empty. -/
inductive Typed : Tree → Prop
  | absent : Typed .absent
  | node {h : Head} {cs : List Tree} : h.kind.admits cs.length = true →
      (∀ p ∈ cs.zipIdx, Fits h.kind p.2 p.1) → (∀ c ∈ cs, Typed c) → Typed (.node h cs)

theorem checkChildren_eq_ok_iff {k : Kind} {i : Nat} {cs : List Tree} :
    checkChildren k i cs = .ok () ↔
      .absent ∉ cs ∧ ∀ p ∈ cs.zipIdx i, Fits k p.2 p.1 := by
  induction cs generalizing i with
  | nil => simp [checkChildren]
  | cons c cs ih =>
      cases c with
      | absent => simp [checkChildren]
      | node h ds =>
          rw [checkChildren]
          split
          next hfamily => simp [ih, Fits, hfamily]
          next hfamily => simp [Fits, hfamily]

theorem check_eq_ok_iff_fits {k : Kind} {cs : List Tree} :
    check k cs = .ok () ↔ k.admits cs.length = true ∧ .absent ∉ cs ∧
      ∀ p ∈ cs.zipIdx, Fits k p.2 p.1 := by
  rw [check_eq_ok_iff, checkChildren_eq_ok_iff]

def levels : Tree → Nat := fold 0 fun _ ns => ns.foldr max 0 + 1

theorem foldr_max_le_iff {ns : List Nat} {m : Nat} : ns.foldr max 0 ≤ m ↔ ∀ n ∈ ns, n ≤ m := by
  induction ns with
  | nil => simp
  | cons n ns ih => rw [List.foldr_cons, Nat.max_le, ih, List.forall_mem_cons]

theorem levels_node_le_iff {h : Head} {cs : List Tree} {m : Int} :
    ((node h cs).levels : Int) ≤ m ↔ 1 ≤ m ∧ ∀ c ∈ cs, (c.levels : Int) + 1 ≤ m := by
  have hlevels : (node h cs).levels = (cs.map levels).foldr max 0 + 1 := by
    rw [levels, fold_node]
  rw [hlevels]
  constructor
  · intro hle
    refine ⟨by omega, ?_⟩
    intro c hc
    have hmax := foldr_max_le_iff.mp (Nat.le_refl _) _ (List.mem_map_of_mem (f := levels) hc)
    omega
  · rintro ⟨hone, hcs⟩
    have hmax : (cs.map levels).foldr max 0 ≤ (m - 1).toNat := by
      refine foldr_max_le_iff.mpr ?_
      intro n hn
      obtain ⟨c, hc, rfl⟩ := List.mem_map.mp hn
      have hle := hcs c hc
      omega
    omega

/-- The deepest of the places below pending trees. -/
theorem placesAll_depth_lt_iff {pending : List Place} {n : Nat} :
    (∀ p ∈ placesAll pending, p.depth < n) ↔
      ∀ q ∈ pending, q.tree ≠ .absent → ((q.tree.levels : Int) ≤ n - q.depth) := by
  fun_induction placesAll pending with
  | case1 => simp
  | case2 depth parent pending ih => simp [ih]
  | case3 h cs depth parent pending ih =>
      simp only [List.map_subtype, List.unattach_attach] at ih
      rw [List.forall_mem_cons, ih, List.forall_mem_append, List.forall_mem_map,
        List.forall_mem_cons, levels_node_le_iff]
      dsimp only
      constructor
      · rintro ⟨hroot, hcs, hpending⟩
        refine ⟨fun _ => ⟨by omega, ?_⟩, hpending⟩
        intro c hc
        cases c with
        | absent =>
            have hzero : levels .absent = 0 := rfl
            omega
        | node l ds =>
            have hle := hcs _ hc (by simp)
            omega
      · rintro ⟨hnode, hpending⟩
        obtain ⟨hroot, hcs⟩ := hnode (by simp)
        refine ⟨by omega, ?_, hpending⟩
        intro c hc _
        have hle := hcs c hc
        omega

theorem foldl_max_le_iff {ps : List Place} {m n : Nat} :
    ps.foldl (fun n p => max n (p.depth + 1)) m ≤ n ↔ m ≤ n ∧ ∀ p ∈ ps, p.depth < n := by
  induction ps generalizing m with
  | nil => simp
  | cons p ps ih =>
      rw [List.foldl_cons, ih, Nat.max_le, List.forall_mem_cons, and_assoc]
      rfl

theorem depth_eq_levels (t : Tree) : t.depth = t.levels := by
  have hle : ∀ n, t.depth ≤ n ↔ t.levels ≤ n := by
    intro n
    rw [depth, foldl_max_le_iff, places, placesAll_depth_lt_iff]
    cases t with
    | absent => simp [levels, fold]
    | node h cs => simp
  exact Nat.le_antisymm ((hle _).mpr (Nat.le_refl _)) ((hle _).mp (Nat.le_refl _))

theorem complete_node_iff {h : Head} {cs : List Tree} :
    Complete (.node h cs) ↔ ∀ c ∈ cs, Complete c :=
  ⟨Complete.children, Complete.node⟩

theorem not_complete_absent : ¬ Complete .absent := by
  intro h
  cases h

theorem typed_of_validateAt {limit : Int} {depth : Nat} {t : Tree}
    (ht : validateAt limit depth t = .ok ()) : t.Typed := by
  induction t generalizing depth with
  | absent => exact .absent
  | node h cs ih =>
      obtain ⟨-, hcheck, hcs⟩ := validateAt_node_iff.mp ht
      obtain ⟨hcount, -, hfits⟩ := check_eq_ok_iff_fits.mp hcheck
      exact .node hcount hfits fun c hc => ih c hc (hcs c hc)

/-- A typed tree is valid if nothing in it is absent and its last level is within the limit. -/
theorem Typed.validateAt_eq_ok_iff {limit : Int} {depth : Nat} {t : Tree} (ht : t.Typed) :
    validateAt limit depth t = .ok () ↔ t.Complete ∧ (t.levels : Int) ≤ limit + 1 - depth := by
  induction ht generalizing depth with
  | absent => simp [not_validateAt_absent, not_complete_absent]
  | @node h cs hcount hfits hcs ih =>
      rw [validateAt_node_iff, check_eq_ok_iff_fits, complete_node_iff, levels_node_le_iff]
      constructor
      · rintro ⟨hdepth, -, hvalid⟩
        refine ⟨fun c hc => ((ih c hc).mp (hvalid c hc)).1, by omega, ?_⟩
        intro c hc
        have hle := ((ih c hc).mp (hvalid c hc)).2
        omega
      · rintro ⟨hcomplete, hroot, hlevels⟩
        refine ⟨by omega, ⟨hcount, ?_, hfits⟩, ?_⟩
        · intro habsent
          exact not_complete_absent (hcomplete _ habsent)
        · intro c hc
          have hle := hlevels c hc
          exact (ih c hc).mpr ⟨hcomplete c hc, by omega⟩

theorem validate_eq_ok_iff {limit : Int} {t : Tree} :
    t.validate limit = .ok () ↔ t.Typed ∧ t.Complete ∧ (t.depth : Int) ≤ limit + 1 := by
  rw [depth_eq_levels]
  constructor
  · intro ht
    have htyped := typed_of_validateAt ht
    have hparts := htyped.validateAt_eq_ok_iff.mp ht
    exact ⟨htyped, hparts.1, by simpa using hparts.2⟩
  · rintro ⟨htyped, hcomplete, hlevels⟩
    exact htyped.validateAt_eq_ok_iff.mpr ⟨hcomplete, by simpa using hlevels⟩

/-- Nothing is absent: neither the root nor a child of a node that can be reached. -/
theorem complete_iff {t : Tree} :
    t.Complete ↔ t ≠ .absent ∧ ∀ x ∈ t.nodes, .absent ∉ x.children := by
  induction t with
  | absent => simp [not_complete_absent]
  | node h cs ih =>
      rw [complete_node_iff]
      constructor
      · intro hcs
        refine ⟨by simp, ?_⟩
        intro x hx habsent
        rcases mem_nodes_node.mp hx with rfl | ⟨c, hc, hx⟩
        · exact not_complete_absent (hcs _ habsent)
        · exact ((ih c hc).mp (hcs c hc)).2 x hx habsent
      · rintro ⟨-, hnodes⟩ c hc
        refine (ih c hc).mpr ⟨?_, ?_⟩
        · rintro rfl
          exact hnodes _ (mem_nodes_node.mpr (.inl rfl)) hc
        · intro x hx
          exact hnodes x (mem_nodes_node.mpr (.inr ⟨c, hc, hx⟩))

end Arbor.Tree
