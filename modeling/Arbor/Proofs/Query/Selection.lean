import Arbor.Proofs.Tree.Place
import Arbor.Query.Basic

/-! The nodes that a query finds are those at the paths where its test holds, in pre-order. -/
namespace Arbor.Query

variable {test : Env → Except QueryError Bool} {t : Tree} {p : Path}

theorem toOption_eq_some_iff {ε α : Type} {x : Except ε α} {a : α} :
    x.toOption = some a ↔ x = .ok a := by
  cases x <;> simp [Except.toOption]

def HoldsAt (test : Env → Except QueryError Bool) (t : Tree) (p : Path) : Prop :=
  ∃ h cs, t.at? p = some (.node h cs) ∧
    test (Env.ofTree p.length (t.parentKind? p) (.node h cs)) = .ok true

/-- The paths at which a test holds, in pre-order. -/
def pathsWith (test : Env → Except QueryError Bool) (t : Tree) : List Path :=
  t.paths.filter fun p => (test (envAt (Tree.Place.below ⟨t, 0, none⟩ p))).toOption = some true

theorem mem_pathsWith_iff : p ∈ pathsWith test t ↔ HoldsAt test t p := by
  rw [pathsWith, List.mem_filter, Tree.mem_paths_iff, decide_eq_true_iff, toOption_eq_some_iff,
    Tree.below_root, envAt]
  constructor
  · rintro ⟨⟨h, cs, hnode⟩, htest⟩
    rw [hnode] at htest
    exact ⟨h, cs, hnode, htest⟩
  · rintro ⟨h, cs, hnode, htest⟩
    rw [hnode]
    exact ⟨⟨h, cs, rfl⟩, htest⟩

theorem pathsWith_ascending : (pathsWith test t).Pairwise (· < ·) :=
  t.paths_ascending.filter _

theorem map_at?_pathsWith : (pathsWith test t).map t.at? = (findWith test t).map some := by
  rw [findWith, Tree.places_eq, List.filter_map, List.map_map, List.map_map]
  refine List.map_congr_left fun p hp => ?_
  obtain ⟨h, cs, hnode⟩ := Tree.mem_paths_iff.mp (List.mem_filter.mp hp).1
  simp [Tree.below_root, hnode]

theorem head?_eq_nil_iff {ps : List Path} (hps : ps.Pairwise (· < ·)) :
    ps.head? = some [] ↔ [] ∈ ps := by
  cases ps with
  | nil => simp
  | cons q ps =>
      rw [List.head?_cons, Option.some.injEq, List.mem_cons]
      constructor
      · rintro rfl
        exact .inl rfl
      · rintro (hq | hmem)
        · exact hq.symm
        · exact absurd ((List.pairwise_cons.mp hps).1 [] hmem) (List.not_lt_nil q)

theorem matchWith_absent : matchWith test .absent = .error (.fault (.absentTree .matching)) := rfl

theorem matchWith_node (h : Head) (cs : List Tree) :
    matchWith test (.node h cs) = test (Env.ofTree 0 none (.node h cs)) := rfl

theorem matchWith_eq_true_iff : matchWith test t = .ok true ↔ HoldsAt test t [] := by
  cases t with
  | absent => simp [matchWith_absent, HoldsAt, Tree.at?]
  | node h cs => simp [matchWith_node, HoldsAt, Tree.at?, Tree.parentKind?]

/-- A search lists the nodes at certain paths. These are in pre-order, which is the order of the
paths, and so none is there twice, and the root comes first if it is there. They are the paths at
which a node is present and the test is true of it, seen with the length of its path as depth and
the kind of the node above it; a test that fails is not true. Whether the root matches tells if it
heads the list, and only that answer tells of an error: that the tree is absent, or that of the
test. -/
theorem find_filters_preorder (test : Env → Except QueryError Bool) (t : Tree) :
    ∃ ps : List Path, ps.Pairwise (· < ·) ∧
      (∀ p, p ∈ ps ↔ ∃ h cs, t.at? p = some (.node h cs) ∧
        test (Env.ofTree p.length (t.parentKind? p) (.node h cs)) = .ok true) ∧
      ps.map t.at? = (findWith test t).map some ∧
      (matchWith test t = .ok true ↔ ps.head? = some []) ∧
      ∀ e, matchWith test t = .error e ↔
        (t = .absent ∧ e = .fault (.absentTree .matching)) ∨
          (t ≠ .absent ∧ test (Env.ofTree 0 none t) = .error e) := by
  refine ⟨pathsWith test t, pathsWith_ascending, fun p => mem_pathsWith_iff, map_at?_pathsWith,
    ?_, ?_⟩
  · rw [matchWith_eq_true_iff, head?_eq_nil_iff pathsWith_ascending, mem_pathsWith_iff]
  · intro e
    cases t with
    | absent => simp [matchWith_absent, eq_comm]
    | node h cs => simp [matchWith_node]

end Arbor.Query
