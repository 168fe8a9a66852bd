import Arbor.Proofs.Diff.Scope
import Arbor.Proofs.Tree.Order
import Arbor.Proofs.Tree.Subtree

/-! Each change of a difference names a node of the old or the new tree by the path to it. -/
namespace Arbor

namespace Path

/-- Somewhere the first path takes an earlier child than the second. -/
def Precedes (p q : Path) : Prop :=
  ∃ r i j s t, i < j ∧ p = r ++ i :: s ∧ q = r ++ j :: t

variable {p q : Path}

theorem Precedes.lt (h : p.Precedes q) : p < q := by
  obtain ⟨r, i, j, s, t, hij, rfl, rfl⟩ := h
  exact List.append_left_lt (List.cons_lt_cons_iff.mpr (.inl hij))

theorem Precedes.not_isPrefix (h : p.Precedes q) : ¬ p <+: q ∧ ¬ q <+: p := by
  obtain ⟨r, i, j, s, t, hij, rfl, rfl⟩ := h
  constructor
  · intro hprefix
    have hcons := (List.prefix_append_right_inj r).mp hprefix
    exact Nat.ne_of_lt hij (List.cons_prefix_cons.mp hcons).1
  · intro hprefix
    have hcons := (List.prefix_append_right_inj r).mp hprefix
    exact Nat.ne_of_gt hij (List.cons_prefix_cons.mp hcons).1

/-- The paths come strictly in pre-order, and none is a prefix of another. -/
def InOrder (ps : List Path) : Prop := ps.Pairwise fun p q => p < q ∧ ¬ p <+: q ∧ ¬ q <+: p

end Path

def Tree.NodesDiffer (t u : Tree) : Prop :=
  ∃ h cs k ds, t = .node h cs ∧ u = .node k ds ∧ (h.kind ≠ k.kind ∨ h.comparePayload k ≠ .eq)

namespace Change

def oldPath? : Change → Option Path
  | replace p _ _ => some p
  | delete p _ => some p
  | insert _ _ => none

def newPath? : Change → Option Path
  | insert q _ => some q
  | replace _ _ _ => none
  | delete _ _ => none

/-- The change tells what stands where it points. A replacement stands in the new tree and differs
as a node from what it replaces. -/
def Points (old new : Tree) : Change → Prop
  | replace p t u => old.at? p = some t ∧ (∃ q, new.at? q = some u) ∧ t.NodesDiffer u
  | delete p t => old.at? p = some t
  | insert q u => new.at? q = some u

variable {p q r : Path} {c : Change}

theorem Within.oldPath? (h : c.Within p q) (hr : c.oldPath? = some r) : p <+: r := by
  cases c with
  | replace _ old new =>
      cases hr
      obtain ⟨s, rfl⟩ := h
      exact List.prefix_append p s
  | delete _ old =>
      cases hr
      obtain ⟨i, s, rfl⟩ := h
      exact List.prefix_append p (i :: s)
  | insert _ new => cases hr

theorem Within.newPath? (h : c.Within p q) (hr : c.newPath? = some r) : q <+: r := by
  cases c with
  | replace _ old new => cases hr
  | delete _ old => cases hr
  | insert _ new =>
      cases hr
      obtain ⟨j, s, rfl⟩ := h
      exact List.prefix_append q (j :: s)

end Change

namespace Match

section Numbered

variable {α : Type}

theorem getElem?_of_mem_numbered {n : Nat} {as : List α} {x : Nat × α} (hx : x ∈ numbered n as) :
    ∃ k, x.1 = n + k ∧ as[k]? = some x.2 := by
  induction as generalizing n with
  | nil => cases hx
  | cons a as ih =>
      rcases List.mem_cons.mp hx with rfl | hx
      · exact ⟨0, rfl, rfl⟩
      · obtain ⟨k, hk, ha⟩ := ih hx
        exact ⟨k + 1, by omega, ha⟩

theorem getElem?_of_items {ms : List (Match α)} {as : List α} {item? : Match α → Option (Nat × α)}
    (hitems : ms.filterMap item? = numbered 0 as) {m : Match α} (hm : m ∈ ms) {i : Nat} {a : α}
    (hi : item? m = some (i, a)) : as[i]? = some a := by
  have hmem : (i, a) ∈ numbered 0 as := by
    rw [← hitems]
    exact List.mem_filterMap.mpr ⟨m, hm, hi⟩
  obtain ⟨k, hk, ha⟩ := getElem?_of_mem_numbered hmem
  rw [Nat.zero_add] at hk
  rwa [← hk] at ha

/-- Paths below items of which the places increase: those of each item are in order, and those of
different items part where the items do. -/
theorem inOrder_flatMap {ms : List (Match α)} (item? : Match α → Option (Nat × α)) (p : Path)
    {paths : Match α → List Path}
    (hitems : (ms.filterMap item?).Pairwise fun x y => x.1 < y.1)
    (hbelow : ∀ m ∈ ms, ∀ r ∈ paths m, ∃ x, item? m = some x ∧ p ++ [x.1] <+: r)
    (heach : ∀ m ∈ ms, Path.InOrder (paths m)) : Path.InOrder (ms.flatMap paths) := by
  apply List.pairwise_flatMap.mpr
  refine ⟨heach, ?_⟩
  rw [List.pairwise_filterMap] at hitems
  -- two paths of different items part right below `p`
  apply hitems.imp_of_mem
  intro m n hm hn hmn r hr s hs
  obtain ⟨x, hx, t, rfl⟩ := hbelow m hm r hr
  obtain ⟨y, hy, u, rfl⟩ := hbelow n hn s hs
  have hprecedes : Path.Precedes (p ++ [x.1] ++ t) (p ++ [y.1] ++ u) :=
    ⟨p, x.1, y.1, t, u, hmn x hx y hy, List.append_assoc p [x.1] t, List.append_assoc p [y.1] u⟩
  exact ⟨hprecedes.lt, hprecedes.not_isPrefix⟩

end Numbered

variable {sub : Path → Path → Marked UInt64 → Marked UInt64 → List Change} {p q : Path}
  {m : Match (Marked UInt64)}

/-- Each change of a match points below the item of the side that its path is in. -/
theorem below_of_mem_changes (hsub : Local sub) {c : Change} (hc : c ∈ changes sub p q m) :
    (∀ r, c.oldPath? = some r → ∃ x, m.old? = some x ∧ p ++ [x.1] <+: r) ∧
      ∀ r, c.newPath? = some r → ∃ x, m.new? = some x ∧ q ++ [x.1] <+: r := by
  cases m with
  | pair i a j b =>
      have hwithin := hsub _ _ a b c hc
      exact ⟨fun r hr => ⟨(i, a), rfl, hwithin.oldPath? hr⟩,
        fun r hr => ⟨(j, b), rfl, hwithin.newPath? hr⟩⟩
  | delete i a =>
      rw [List.mem_singleton.mp hc]
      refine ⟨?_, nofun⟩
      rintro r ⟨⟩
      exact ⟨(i, a), rfl, List.prefix_rfl⟩
  | insert j b =>
      rw [List.mem_singleton.mp hc]
      refine ⟨nofun, ?_⟩
      rintro r ⟨⟩
      exact ⟨(j, b), rfl, List.prefix_rfl⟩

end Match

structure Change.InOrder (cs : List Change) : Prop where
  old : Path.InOrder (cs.filterMap Change.oldPath?)
  new : Path.InOrder (cs.filterMap Change.newPath?)

theorem Change.inOrder_singleton (c : Change) : InOrder [c] := by
  cases c with
  | replace p old new => exact ⟨List.pairwise_singleton _ _, .nil⟩
  | delete p old => exact ⟨List.pairwise_singleton _ _, .nil⟩
  | insert q new => exact ⟨.nil, List.pairwise_singleton _ _⟩

/-- One step: the changes of matched children are in order if those of each pair are. -/
theorem Match.inOrder_changes {sub : Path → Path → Marked UInt64 → Marked UInt64 → List Change}
    (hsub : Local sub) (hpairs : ∀ p q a b, Change.InOrder (sub p q a b)) {p q : Path}
    {ms : List (Match (Marked UInt64))} {as bs : List (Marked UInt64)}
    (hcovers : Covers ms (numbered 0 as) (numbered 0 bs)) :
    Change.InOrder (ms.flatMap (changes sub p q)) := by
  have heach : ∀ m ∈ ms, Change.InOrder (changes sub p q m) := by
    intro m _
    cases m with
    | pair i a j b => exact hpairs _ _ a b
    | delete i a => exact Change.inOrder_singleton _
    | insert j b => exact Change.inOrder_singleton _
  constructor
  · rw [List.filterMap_flatMap]
    apply inOrder_flatMap old? p
    · rw [hcovers.old]
      exact pairwise_numbered 0 as
    · intro m _ r hr
      obtain ⟨c, hc, hr⟩ := List.mem_filterMap.mp hr
      exact (below_of_mem_changes hsub hc).1 r hr
    · exact fun m hm => (heach m hm).old
  · rw [List.filterMap_flatMap]
    apply inOrder_flatMap new? q
    · rw [hcovers.new]
      exact pairwise_numbered 0 bs
    · intro m _ r hr
      obtain ⟨c, hc, hr⟩ := List.mem_filterMap.mp hr
      exact (below_of_mem_changes hsub hc).2 r hr
    · exact fun m hm => (heach m hm).new

namespace Marked

variable {align : Aligner} {limit : Int}

theorem inOrder_changes (halign : align.Covers) (fuel : Nat) (p q : Path) (f t : Marked UInt64) :
    Change.InOrder (changes align limit fuel p q f t) := by
  induction fuel generalizing p q f t with
  | zero => exact Change.inOrder_singleton _
  | succ fuel ih =>
      rw [changes_succ]
      split
      · exact ⟨.nil, .nil⟩
      · split
        · exact Change.inOrder_singleton _
        · exact Match.inOrder_changes (within_of_mem_changes fuel) ih (covers_matchChildren halign f t)

theorem nodesDiffer_of_agrees {f t : Marked UInt64} (h : f.agrees t = false) :
    f.tree.NodesDiffer t.tree := by
  refine ⟨f.head, _, t.head, _, f.tree_eq, t.tree_eq, ?_⟩
  by_cases hkind : f.head.kind = t.head.kind
  · right
    intro hpayload
    have hsame := (Head.comparePayload_eq_iff hkind).mp hpayload
    have hagrees := agrees_eq_true_iff.mpr ⟨hkind, hsame.payloadBytes⟩
    rw [h] at hagrees
    cases hagrees
  · exact .inl hkind

theorem at?_child {t : Tree} {p : Path} {m c : Marked UInt64} {i : Nat}
    (ht : t.at? p = some m.tree) (hc : m.children[i]? = some c) :
    t.at? (p ++ [i]) = some c.tree := by
  rw [Tree.at?_append, ht, Option.bind_some, at?_tree, at?, hc]
  rfl

theorem levels_of_child {m c : Marked UInt64} {i n : Nat} (hm : m.tree.levels ≤ n + 1)
    (hc : m.children[i]? = some c) : c.tree.levels ≤ n := by
  have hself : m.tree.at? [i] = some c.tree := at?_child (p := []) rfl hc
  have hlevels := Tree.levels_of_at? hself
  rw [List.length_singleton] at hlevels
  omega

theorem levels_pos (m : Marked UInt64) : 0 < m.tree.levels := by
  rw [m.tree_eq]
  exact Int.ofNat_le.mp (Tree.levels_node_le_iff.mp (Int.le_refl _)).1

/-- The changes between two nodes point to nodes of the trees that these stand in. -/
theorem points_of_mem_changes {old new : Tree} (halign : align.Covers) {fuel : Nat} {p q : Path}
    {f t : Marked UInt64} (hfuel : f.tree.levels ≤ fuel) (hf : old.at? p = some f.tree)
    (ht : new.at? q = some t.tree) : ∀ c ∈ changes align limit fuel p q f t, c.Points old new := by
  -- a child has a level less than its node, so the fuel lasts as long as the levels do
  induction fuel generalizing p q f t with
  | zero =>
      have hpos := f.levels_pos
      omega
  | succ fuel ih =>
      intro c hc
      rw [changes_succ] at hc
      split at hc
      · cases hc
      · split at hc
        next hagrees =>
          rw [List.mem_singleton.mp hc]
          exact ⟨hf, ⟨q, ht⟩, nodesDiffer_of_agrees (by simpa using hagrees)⟩
        next =>
          have hcovers := covers_matchChildren halign f t
          obtain ⟨m, hm, hc⟩ := List.mem_flatMap.mp hc
          cases m with
          | pair i a j b =>
              have ha := Match.getElem?_of_items hcovers.old hm rfl
              have hb := Match.getElem?_of_items hcovers.new hm rfl
              exact ih (levels_of_child hfuel ha) (at?_child hf ha) (at?_child ht hb) c hc
          | delete i a =>
              rw [List.mem_singleton.mp hc]
              exact at?_child hf (Match.getElem?_of_items hcovers.old hm rfl)
          | insert j b =>
              rw [List.mem_singleton.mp hc]
              exact at?_child ht (Match.getElem?_of_items hcovers.new hm rfl)

end Marked

namespace Tree

/-- The changes between two valid trees, with any hash function and any aligner that covers both
child lists. Each of them tells what stands where it points; the paths in the old tree come strictly
in pre-order and none is a prefix of another, and so do the paths in the new tree. -/
theorem diff_points {align : Aligner} (halign : align.Covers) (hasher : Hasher) {limit : Int}
    {old new : Tree} (hold : old.validate limit = .ok ()) (hnew : new.validate limit = .ok ()) :
    ∃ cs, old.diffWith align hasher limit new = .ok cs ∧ (∀ c ∈ cs, c.Points old new) ∧
      Path.InOrder (cs.filterMap Change.oldPath?) ∧
      Path.InOrder (cs.filterMap Change.newPath?) := by
  obtain ⟨f, hf⟩ : ∃ f, old.hashes hasher limit = .ok f := markAt_succeeds hold
  obtain ⟨t, ht⟩ : ∃ t, new.hashes hasher limit = .ok t := markAt_succeeds hnew
  have hftree := (markAt_eq_ok 0 hf).1
  have httree := (markAt_eq_ok 0 ht).1
  refine ⟨_, by rw [diffWith, hold, hnew, hf, ht]; rfl, ?_, ?_⟩
  · apply Marked.points_of_mem_changes halign
    · rw [hftree, depth_eq_levels]
      exact Nat.le_succ _
    · rw [hftree]
      rfl
    · rw [httree]
      rfl
  · have horder : Change.InOrder (Marked.changes align limit (old.depth + 1) [] [] f t) :=
      Marked.inOrder_changes halign (old.depth + 1) [] [] f t
    exact ⟨horder.old, horder.new⟩

theorem diff_points_block :
    let number (n : Int64) := node .expression [node (.integer n) []]
    let old := node .block [number 1, number 2, node .ifElse [node .null [], number 3, number 4]]
    let new := node .block [number 2, node .ifElse [node .null [], number 5], number 6, number 7]
    (old.validate 3 = .ok () ∧ new.validate 3 = .ok ()) ∧
      ∃ cs, old.diff 3 new = .ok cs ∧ (∀ c ∈ cs, c.Points old new) ∧
        cs.filterMap Change.oldPath? = [[0], [2, 1, 0], [2, 2]] ∧
        cs.filterMap Change.newPath? = [[2], [3]] ∧
        Path.InOrder (cs.filterMap Change.oldPath?) ∧
        Path.InOrder (cs.filterMap Change.newPath?) := by
  intro number old new
  have hold : old.validate 3 = .ok () := rfl
  have hnew : new.validate 3 = .ok () := rfl
  have hpaths : ((old.diff 3 new).map fun cs =>
      (cs.filterMap Change.oldPath?, cs.filterMap Change.newPath?)).toOption =
        some ([[0], [2, 1, 0], [2, 2]], [[2], [3]]) := by
    rw [diff, diffWith, depth_eq_levels]
    decide +kernel
  obtain ⟨cs, hcs, hpoints, horder⟩ := diff_points Aligner.covers_short fnv1a hold hnew
  rw [diff, hcs] at hpaths
  obtain ⟨holdPaths, hnewPaths⟩ := Prod.mk.inj (Option.some.inj hpaths)
  exact ⟨⟨hold, hnew⟩, cs, hcs, hpoints, holdPaths, hnewPaths, horder⟩

end Tree

end Arbor
