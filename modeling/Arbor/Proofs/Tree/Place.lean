import Arbor.Proofs.Tree.Subtree

/-! The depth of a node and the kind above it are found again from its path. -/
namespace Arbor.Tree

mutual

/-- The paths to the present nodes of a tree in pre-order, the one to the root first. -/
def paths : Tree → List Path
  | absent => []
  | node _ cs => [] :: pathsAll 0 cs

def pathsAll (i : Nat) : List Tree → List Path
  | [] => []
  | t :: ts => (paths t).map (i :: ·) ++ pathsAll (i + 1) ts

end

theorem paths_node (h : Head) (cs : List Tree) :
    (node h cs).paths = [] :: cs.zipIdx.flatMap fun c => c.1.paths.map (c.2 :: ·) := by
  have hall : ∀ i, ∀ ts : List Tree,
      pathsAll i ts = (ts.zipIdx i).flatMap fun c => c.1.paths.map (c.2 :: ·) := by
    intro i ts
    induction ts generalizing i with
    | nil => rfl
    | cons t ts ih => rw [pathsAll, ih, List.zipIdx_cons, List.flatMap_cons]
  rw [paths, hall]

theorem mem_paths_iff {t : Tree} {p : Path} :
    p ∈ t.paths ↔ ∃ h cs, t.at? p = some (.node h cs) := by
  induction t generalizing p with
  | absent => cases p <;> simp [paths, at?, children]
  | node h cs ih =>
      rw [paths_node, List.mem_cons, List.mem_flatMap]
      cases p with
      | nil => simp [at?]
      | cons i p =>
          simp only [at?_cons_eq_some_iff, children]
          constructor
          · rintro (hnil | ⟨⟨c, j⟩, hc, hp⟩)
            · cases hnil
            · obtain ⟨q, hq, heq⟩ := List.mem_map.mp hp
              obtain ⟨rfl, rfl⟩ := List.cons.inj heq
              have hc := List.mem_zipIdx_iff_getElem?.mp hc
              obtain ⟨l, ds, hl⟩ := (ih c (List.mem_of_getElem? hc)).mp hq
              exact ⟨l, ds, c, hc, hl⟩
          · rintro ⟨l, ds, c, hc, hl⟩
            have hp := (ih c (List.mem_of_getElem? hc)).mpr ⟨l, ds, hl⟩
            exact .inr ⟨(c, i), List.mem_zipIdx_iff_getElem?.mpr hc, List.mem_map_of_mem hp⟩

/-- Pre-order is the order of the paths, and no path occurs twice. -/
theorem paths_ascending (t : Tree) : t.paths.Pairwise (· < ·) := by
  induction t with
  | absent => exact .nil
  | node h cs ih =>
      rw [paths_node, List.pairwise_cons, List.pairwise_flatMap]
      refine ⟨?_, ?_, ?_⟩
      · intro p hp
        obtain ⟨c, -, hp⟩ := List.mem_flatMap.mp hp
        obtain ⟨q, -, rfl⟩ := List.mem_map.mp hp
        exact List.nil_lt_cons _ _
      · rintro ⟨c, i⟩ hc
        have hc := List.mem_of_getElem? (List.mem_zipIdx_iff_getElem?.mp hc)
        exact List.pairwise_map.mpr ((ih c hc).imp fun hpq => List.cons_lt_cons_iff.mpr
          (.inr ⟨rfl, hpq⟩))
      · -- the paths below an earlier child begin with a lower index
        have hindices : (cs.zipIdx.map Prod.snd).Pairwise (· < ·) := by
          rw [List.zipIdx_map_snd]
          exact List.pairwise_lt_range'
        refine (List.pairwise_map.mp hindices).imp ?_
        intro c d hcd p hp q hq
        obtain ⟨p, -, rfl⟩ := List.mem_map.mp hp
        obtain ⟨q, -, rfl⟩ := List.mem_map.mp hq
        exact List.cons_lt_cons_iff.mpr (.inl hcd)

/-- The kind of the node above the one at a path; nothing is above the root. -/
def parentKind? (t : Tree) (p : Path) : Option Kind :=
  if p = [] then none else (t.at? p.dropLast).bind kind?

/-- Where a path leads from a place. -/
def Place.below (q : Place) (p : Path) : Place where
  tree := (q.tree.at? p).getD absent
  depth := q.depth + p.length
  parent := if p = [] then q.parent else (q.tree.at? p.dropLast).bind kind?

theorem Place.below_cons {h : Head} {cs : List Tree} {depth : Nat} {parent : Option Kind} {i : Nat}
    {c : Tree} (hc : cs[i]? = some c) (p : Path) :
    Place.below ⟨node h cs, depth, parent⟩ (i :: p) =
      Place.below ⟨c, depth + 1, some h.kind⟩ p := by
  have hdepth : depth + (p.length + 1) = depth + 1 + p.length := by omega
  cases p with
  | nil => simp [below, at?, children, kind?, hc]
  | cons j p => simpa [below, at?, children, hc] using hdepth

theorem Place.map_below_node (h : Head) (cs : List Tree) (depth : Nat) (parent : Option Kind) :
    (node h cs).paths.map (Place.below ⟨node h cs, depth, parent⟩) =
      ⟨node h cs, depth, parent⟩ ::
        cs.flatMap fun c => c.paths.map (Place.below ⟨c, depth + 1, some h.kind⟩) := by
  have hchild : ∀ c ∈ cs.zipIdx,
      (c.1.paths.map (c.2 :: ·)).map (Place.below ⟨node h cs, depth, parent⟩) =
        c.1.paths.map (Place.below ⟨c.1, depth + 1, some h.kind⟩) := by
    intro c hc
    rw [List.map_map]
    exact List.map_congr_left fun p _ => below_cons (List.mem_zipIdx_iff_getElem?.mp hc) p
  have hindices : cs.zipIdx.flatMap
      (fun c => c.1.paths.map (Place.below ⟨c.1, depth + 1, some h.kind⟩)) =
        (cs.zipIdx.map Prod.fst).flatMap
          fun c => c.paths.map (Place.below ⟨c, depth + 1, some h.kind⟩) := by
    rw [List.flatMap_map]
  rw [paths_node, List.map_cons, List.map_flatMap, List.flatMap_congr hchild, hindices,
    List.zipIdx_map_fst]
  rfl

/-- What a loop over places still meets: the places below each pending one, in the order of their
paths. -/
theorem placesAll_eq (pending : List Place) :
    placesAll pending = pending.flatMap fun q => q.tree.paths.map q.below := by
  fun_induction placesAll pending with
  | case1 => rfl
  | case2 depth parent pending ih =>
      rw [ih, List.flatMap_cons, paths, List.map_nil, List.nil_append]
  | case3 h cs depth parent pending ih =>
      simp only [List.map_subtype, List.unattach_attach] at ih
      rw [ih, List.flatMap_append, List.flatMap_map, List.flatMap_cons, Place.map_below_node]
      rfl

theorem places_eq (t : Tree) : t.places = t.paths.map (Place.below ⟨t, 0, none⟩) := by
  rw [places, placesAll_eq, List.flatMap_singleton]

theorem below_root (t : Tree) (p : Path) :
    Place.below ⟨t, 0, none⟩ p = ⟨(t.at? p).getD absent, p.length, t.parentKind? p⟩ := by
  rw [Place.below, Nat.zero_add]
  rfl

theorem map_tree_places (t : Tree) : t.places.map Place.tree = t.nodes := by
  have hall : ∀ pending : List Place,
      (placesAll pending).map Place.tree = pending.flatMap fun q => q.tree.nodes := by
    intro pending
    fun_induction placesAll pending with
    | case1 => rfl
    | case2 depth parent pending ih => simpa [nodes, inspect, inspectAll] using ih
    | case3 h cs depth parent pending ih =>
        simp only [List.map_subtype, List.unattach_attach] at ih
        rw [List.map_cons, ih, List.flatMap_append, List.flatMap_map, List.flatMap_cons, nodes_node,
          List.cons_append]
  rw [places, hall, List.flatMap_singleton]

end Arbor.Tree
