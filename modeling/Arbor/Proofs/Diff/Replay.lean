import Arbor.Proofs.Diff.Scope
import Arbor.Proofs.Tree.Marked
import Arbor.Proofs.Tree.Order

/-! The changes between two trees are enough to make the new tree out of the old one. -/
namespace Arbor

def Path.child? : Path → Path → Option Nat
  | [], [j] => some j
  | a :: q, b :: r => if a = b then child? q r else none
  | _, _ => none

namespace Change

/-- What a change puts in the place of the old node at a path. -/
def replacement? (p : Path) : Change → Option Tree
  | replace r _ new => if r = p then some new else none
  | _ => none

def deletes (p : Path) : Change → Bool
  | delete r _ => r = p
  | _ => false

/-- The child that a change inserts below the new node at a path, with its place. -/
def insertion? (q : Path) : Change → Option (Nat × Tree)
  | insert r new => (q.child? r).map (·, new)
  | _ => none

end Change

namespace Tree

/-- The `n` children from place `j` on of the new node at a path: inserted children where they belong,
and the kept ones in order at the other places. A kept child is given its new path. -/
def place (inserted : List (Nat × Tree)) (q : Path) :
    Nat → Nat → List (Path → Option Tree) → Option (List Tree)
  | 0, _, [] => some []
  | 0, _, _ :: _ => none
  | n + 1, j, kept =>
    match inserted.lookup j, kept with
    | some u, kept => (place inserted q n (j + 1) kept).map (u :: ·)
    | none, [] => none
    | none, k :: kept => do
      let u ← k (q ++ [j])
      let us ← place inserted q n (j + 1) kept
      return u :: us

theorem place_of_inserted {inserted : List (Nat × Tree)} {q : Path} {n j : Nat}
    {kept : List (Path → Option Tree)} {u : Tree} (hj : inserted.lookup j = some u) :
    place inserted q (n + 1) j kept = (place inserted q n (j + 1) kept).map (u :: ·) := by
  simp only [place, hj]

theorem place_of_kept {inserted : List (Nat × Tree)} {q : Path} {n j : Nat}
    {kept : List (Path → Option Tree)} {k : Path → Option Tree} {u : Tree}
    (hj : inserted.lookup j = none) (hk : k (q ++ [j]) = some u) :
    place inserted q (n + 1) j (k :: kept) = (place inserted q n (j + 1) kept).map (u :: ·) := by
  simp only [place, hj, hk]
  cases place inserted q n (j + 1) kept with
  | none => rfl
  | some us => rfl

mutual

/-- The tree made of the old one at a path, for a path of the new tree; no tree if an inserted child
has no place. -/
def replayAt (cs : List Change) : Path → Tree → Path → Option Tree
  | _, absent, _ => some absent
  | p, node h ts, q =>
    match cs.findSome? (Change.replacement? p) with
    | some u => some u
    | none =>
      let inserted := cs.filterMap (Change.insertion? q)
      let kept := replayKept cs p 0 ts
      (place inserted q (inserted.length + kept.length) 0 kept).map (node h)

/-- The children from place `i` on that are not deleted, each for a path of the new tree. -/
def replayKept (cs : List Change) : Path → Nat → List Tree → List (Path → Option Tree)
  | _, _, [] => []
  | p, i, t :: ts =>
    if cs.any (Change.deletes (p ++ [i])) then replayKept cs p (i + 1) ts
    else replayAt cs (p ++ [i]) t :: replayKept cs p (i + 1) ts

end

def replay (cs : List Change) (t : Tree) : Option Tree := replayAt cs [] t []

end Tree

theorem Path.child?_eq_some_iff {q r : Path} {j : Nat} : q.child? r = some j ↔ r = q ++ [j] := by
  induction q generalizing r with
  | nil =>
      match r with
      | [] => simp [child?]
      | [k] => simp [child?]
      | k :: l :: r => simp [child?]
  | cons a q ih =>
      match r with
      | [] => simp [child?]
      | b :: r =>
          by_cases hab : a = b
          · simp [child?, hab, ih]
          · simp [child?, hab, Ne.symm hab]

namespace Change

variable {p q : Path} {i j : Nat} {c : Change}

/-- A change below a child leaves the node itself, its child list and its new children alone. -/
theorem Within.replacement?_eq_none (h : Within (p ++ [i]) (q ++ [j]) c) :
    replacement? p c = none := by
  cases c with
  | replace r old new =>
      obtain ⟨s, rfl⟩ := h
      simp [replacement?]
  | _ => rfl

theorem Within.deletes_eq_false (h : Within (p ++ [i]) (q ++ [j]) c) (k : Nat) :
    deletes (p ++ [k]) c = false := by
  cases c with
  | delete r old =>
      obtain ⟨m, s, rfl⟩ := h
      simp [deletes]
  | _ => rfl

theorem Within.insertion?_eq_none (h : Within (p ++ [i]) (q ++ [j]) c) :
    insertion? q c = none := by
  cases c with
  | insert r new =>
      obtain ⟨m, s, rfl⟩ := h
      have hchild : q.child? (q ++ [j] ++ m :: s) = none := by
        rw [Option.eq_none_iff_forall_ne_some]
        intro l hl
        simpa using Path.child?_eq_some_iff.mp hl
      rw [insertion?, hchild]
      rfl
  | _ => rfl

theorem within_of_replacement? {u : Tree} (h : replacement? p c = some u) : Within p q c := by
  cases c with
  | replace r old new =>
      have hr : r = p := by
        by_contra hr
        simp [replacement?, hr] at h
      exact ⟨[], by rw [hr, List.append_nil]⟩
  | _ => cases h

theorem within_of_deletes (h : deletes (p ++ [i]) c = true) : Within p q c := by
  cases c with
  | delete r old => exact ⟨i, [], of_decide_eq_true h⟩
  | _ => cases h

theorem within_of_insertion? {x : Nat × Tree} (h : insertion? q c = some x) : Within p q c := by
  cases c with
  | insert r new =>
      obtain ⟨l, hl, -⟩ := Option.map_eq_some_iff.mp h
      exact ⟨l, [], Path.child?_eq_some_iff.mp hl⟩
  | _ => cases h

theorem findSome?_part (cs : List Change) :
    (part p q cs).findSome? (replacement? p) = cs.findSome? (replacement? p) := by
  rw [← List.head?_filterMap, ← List.head?_filterMap,
    filterMap_part fun c x => within_of_replacement?]

theorem any_part (cs : List Change) :
    (part p q cs).any (deletes (p ++ [i])) = cs.any (deletes (p ++ [i])) := by
  rw [Bool.eq_iff_iff, List.any_eq_true, List.any_eq_true]
  constructor
  · rintro ⟨c, hc, hdeletes⟩
    exact ⟨c, (mem_part.mp hc).1, hdeletes⟩
  · rintro ⟨c, hc, hdeletes⟩
    exact ⟨c, mem_part.mpr ⟨hc, within_of_deletes hdeletes⟩, hdeletes⟩

end Change

namespace Match

variable {sub : Path → Path → Marked UInt64 → Marked UInt64 → List Change} {p q : Path}
  {ms : List (Match (Marked UInt64))}

theorem findSome?_flatMap_changes (hsub : Local sub) :
    (ms.flatMap (changes sub p q)).findSome? (Change.replacement? p) = none := by
  rw [List.findSome?_eq_none_iff]
  intro c hc
  obtain ⟨m, -, hc⟩ := List.mem_flatMap.mp hc
  cases m with
  | pair i a j b => exact (hsub _ _ a b c hc).replacement?_eq_none
  | delete i a =>
      rw [List.mem_singleton.mp hc]
      rfl
  | insert j b =>
      rw [List.mem_singleton.mp hc]
      rfl

theorem any_flatMap_of_delete {i : Nat} {a : Marked UInt64} (hm : delete i a ∈ ms) :
    (ms.flatMap (changes sub p q)).any (Change.deletes (p ++ [i])) = true := by
  rw [List.any_eq_true]
  exact ⟨_, List.mem_flatMap.mpr ⟨_, hm, List.mem_singleton_self _⟩, decide_eq_true rfl⟩

theorem any_flatMap_of_pair (hsub : Local sub) (hms : ms.Pairwise Apart) {i j : Nat}
    {a b : Marked UInt64} (hpair : pair i a j b ∈ ms) :
    (ms.flatMap (changes sub p q)).any (Change.deletes (p ++ [i])) = false := by
  rw [List.any_eq_false]
  intro c hc
  obtain ⟨m, hm, hc⟩ := List.mem_flatMap.mp hc
  cases m with
  | pair k d l e => simp [(hsub _ _ d e c hc).deletes_eq_false i]
  | delete k d =>
      have hik : k ≠ i := (hms.forall hm hpair (by simp)).1 _ rfl _ rfl
      rw [List.mem_singleton.mp hc]
      simp [Change.deletes, hik]
  | insert l e =>
      rw [List.mem_singleton.mp hc]
      simp [Change.deletes]

def inserted? : Match (Marked UInt64) → Option (Nat × Tree)
  | pair _ _ _ _ => none
  | delete _ _ => none
  | insert j b => some (j, b.tree)

theorem filterMap_flatMap_changes (hsub : Local sub) :
    (ms.flatMap (changes sub p q)).filterMap (Change.insertion? q) = ms.filterMap inserted? := by
  induction ms with
  | nil => rfl
  | cons m ms ih =>
      rw [List.flatMap_cons, List.filterMap_append, ih]
      cases m with
      | pair i a j b =>
          have hnone : (changes sub p q (pair i a j b)).filterMap (Change.insertion? q) = [] :=
            List.filterMap_eq_nil_iff.mpr fun c hc => (hsub _ _ a b c hc).insertion?_eq_none
          rw [hnone]
          rfl
      | delete i a => rfl
      | insert j b =>
          have hchild : q.child? (q ++ [j]) = some j := Path.child?_eq_some_iff.mpr rfl
          simp [changes, Change.insertion?, hchild, inserted?]

def replayed? (cs : List Change) (p : Path) : Match (Marked UInt64) → Option (Path → Option Tree)
  | pair i a _ _ => some (Tree.replayAt cs (p ++ [i]) a.tree)
  | delete _ _ => none
  | insert _ _ => none

theorem length_filterMap_new? (cs : List Change) (ms : List (Match (Marked UInt64))) :
    (ms.filterMap inserted?).length + (ms.filterMap (replayed? cs p)).length =
      (ms.filterMap new?).length := by
  induction ms with
  | nil => rfl
  | cons m ms ih =>
      cases m with
      | pair i a j b =>
          simp only [List.filterMap_cons, inserted?, replayed?, new?, List.length_cons]
          omega
      | delete i a =>
          simp only [List.filterMap_cons, inserted?, replayed?, new?]
          exact ih
      | insert j b =>
          simp only [List.filterMap_cons, inserted?, replayed?, new?, List.length_cons]
          omega

theorem lookup_of_insert (hms : ms.Pairwise Apart) {j : Nat} {b : Marked UInt64}
    (hm : insert j b ∈ ms) : (ms.filterMap inserted?).lookup j = some b.tree := by
  induction hms with
  | nil => cases hm
  | @cons m ms hapart hms ih =>
      rcases List.mem_cons.mp hm with rfl | hrest
      · exact List.lookup_cons_self
      · cases m with
        | pair i a l e => exact ih hrest
        | delete i a => exact ih hrest
        | insert l e =>
            have hne : l ≠ j := (hapart _ hrest).2 _ rfl _ rfl
            rw [List.filterMap_cons, inserted?, List.lookup_cons, beq_false_of_ne hne.symm]
            exact ih hrest

theorem lookup_of_pair (hms : ms.Pairwise Apart) {i j : Nat} {a b : Marked UInt64}
    (hm : pair i a j b ∈ ms) : (ms.filterMap inserted?).lookup j = none := by
  rw [List.lookup_eq_none_iff]
  intro x hx
  obtain ⟨n, hn, hx⟩ := List.mem_filterMap.mp hx
  cases n with
  | pair k d l e => cases hx
  | delete k d => cases hx
  | insert l e =>
      cases hx
      have hne : j ≠ l := (hms.forall hm hn (by simp)).2 _ rfl _ rfl
      exact bne_iff_ne.mpr hne

theorem replayKept_eq {cs : List Change}
    (hdelete : ∀ i a, delete i a ∈ ms → cs.any (Change.deletes (p ++ [i])) = true)
    (hpair : ∀ i a j b, pair i a j b ∈ ms → cs.any (Change.deletes (p ++ [i])) = false)
    {n : Nat} {as : List (Marked UInt64)} (hold : ms.filterMap old? = numbered n as) :
    Tree.replayKept cs p n (as.map Marked.tree) = ms.filterMap (replayed? cs p) := by
  induction ms generalizing n as with
  | nil =>
      cases as with
      | nil => rfl
      | cons a as => cases hold
  | cons m ms ih =>
      have hrest {k : Nat} {ds : List (Marked UInt64)} :=
        @ih (fun i a h => hdelete i a (List.mem_cons_of_mem m h))
          (fun i a j b h => hpair i a j b (List.mem_cons_of_mem m h)) k ds
      cases m with
      | pair i a j b =>
          obtain ⟨d, ds, rfl, hd, hds⟩ := exists_of_numbered_eq_cons hold
          cases hd
          rw [List.map_cons, Tree.replayKept, hpair _ _ _ _ List.mem_cons_self, hrest hds]
          rfl
      | delete i a =>
          obtain ⟨d, ds, rfl, hd, hds⟩ := exists_of_numbered_eq_cons hold
          cases hd
          rw [List.map_cons, Tree.replayKept, hdelete _ _ List.mem_cons_self]
          exact hrest hds
      | insert j b => exact hrest hold

/-- Inserted and kept children come together as the new children. -/
theorem place_eq {cs : List Change} {inserted : List (Nat × Tree)}
    (hinsert : ∀ j b, insert j b ∈ ms → inserted.lookup j = some b.tree)
    (hpair : ∀ i a j b, pair i a j b ∈ ms → inserted.lookup j = none ∧
      ∃ u, Tree.replayAt cs (p ++ [i]) a.tree (q ++ [j]) = some u ∧ u.Same b.tree)
    {n : Nat} {bs : List (Marked UInt64)} (hnew : ms.filterMap new? = numbered n bs) :
    ∃ us, Tree.place inserted q bs.length n (ms.filterMap (replayed? cs p)) = some us ∧
      List.Forall₂ Tree.Same us (bs.map Marked.tree) := by
  induction ms generalizing n bs with
  | nil =>
      cases bs with
      | nil => exact ⟨[], rfl, .nil⟩
      | cons b bs => cases hnew
  | cons m ms ih =>
      have hrest {k : Nat} {es : List (Marked UInt64)} :=
        @ih (fun j b h => hinsert j b (List.mem_cons_of_mem m h))
          (fun i a j b h => hpair i a j b (List.mem_cons_of_mem m h)) k es
      cases m with
      | pair i a j b =>
          obtain ⟨e, es, rfl, he, hes⟩ := exists_of_numbered_eq_cons hnew
          cases he
          obtain ⟨hlookup, u, hu, hsame⟩ := hpair _ _ _ _ List.mem_cons_self
          obtain ⟨us, hus, hall⟩ := hrest hes
          refine ⟨u :: us, ?_, .cons hsame hall⟩
          rw [List.filterMap_cons, List.length_cons, replayed?, Tree.place_of_kept hlookup hu, hus]
          rfl
      | delete i a => exact hrest hnew
      | insert j b =>
          obtain ⟨e, es, rfl, he, hes⟩ := exists_of_numbered_eq_cons hnew
          cases he
          obtain ⟨us, hus, hall⟩ := hrest hes
          refine ⟨b.tree :: us, ?_, .cons (.refl _) hall⟩
          rw [List.filterMap_cons, List.length_cons, replayed?,
            Tree.place_of_inserted (hinsert _ _ List.mem_cons_self), hus]
          rfl

/-- One step of replaying: a node whose children are matched, if the pairs are replayed. -/
theorem replayAt_matched (hsub : Local sub) {cs : List Change} {as bs : List (Marked UInt64)}
    (hcovers : Covers ms (numbered 0 as) (numbered 0 bs))
    (hcs : Change.part p q cs = ms.flatMap (changes sub p q))
    (hpairs : ∀ i a j b, pair i a j b ∈ ms →
      ∃ u, Tree.replayAt cs (p ++ [i]) a.tree (q ++ [j]) = some u ∧ u.Same b.tree) (h : Head) :
    ∃ us, Tree.replayAt cs p (.node h (as.map Marked.tree)) q = some (.node h us) ∧
      List.Forall₂ Tree.Same us (bs.map Marked.tree) := by
  have hapart := hcovers.apart
  have hreplacement : cs.findSome? (Change.replacement? p) = none := by
    rw [← Change.findSome?_part, hcs, findSome?_flatMap_changes hsub]
  have hinserted : cs.filterMap (Change.insertion? q) = ms.filterMap inserted? := by
    rw [← Change.filterMap_part fun c x => Change.within_of_insertion?, hcs,
      filterMap_flatMap_changes hsub]
  have hkept : Tree.replayKept cs p 0 (as.map Marked.tree) = ms.filterMap (replayed? cs p) := by
    refine replayKept_eq ?_ ?_ hcovers.old
    · intro i a hm
      rw [← Change.any_part, hcs, any_flatMap_of_delete hm]
    · intro i a j b hm
      rw [← Change.any_part, hcs, any_flatMap_of_pair hsub hapart hm]
  have hlength : (ms.filterMap inserted?).length + (ms.filterMap (replayed? cs p)).length =
      bs.length := by
    rw [length_filterMap_new?, hcovers.new, numbered_length]
  obtain ⟨us, hus, hall⟩ := place_eq (fun j b hm => lookup_of_insert hapart hm)
    (fun i a j b hm => ⟨lookup_of_pair hapart hm, hpairs i a j b hm⟩) hcovers.new
  refine ⟨us, ?_, hall⟩
  rw [Tree.replayAt, hreplacement]
  simp only [hinserted, hkept, hlength, hus, Option.map_some]

end Match

namespace Tree

variable {cs : List Change} {p q : Path}

theorem replayAt_of_replace {h : Head} {ts : List Tree} {old new : Tree}
    (hcs : Change.part p q cs = [.replace p old new]) : replayAt cs p (.node h ts) q = some new := by
  have hreplacement : cs.findSome? (Change.replacement? p) = some new := by
    rw [← Change.findSome?_part, hcs]
    simp [Change.replacement?]
  rw [replayAt, hreplacement]

theorem length_replayKept (hcs : ∀ i, cs.any (Change.deletes (p ++ [i])) = false) (n : Nat)
    (ts : List Tree) : (replayKept cs p n ts).length = ts.length := by
  induction ts generalizing n with
  | nil => rfl
  | cons t ts ih =>
      rw [replayKept, hcs n]
      exact congrArg (· + 1) (ih (n + 1))

theorem place_replayKept (hcs : ∀ i, cs.any (Change.deletes (p ++ [i])) = false) {ts : List Tree}
    (hts : ∀ t ∈ ts, ∀ i j, replayAt cs (p ++ [i]) t (q ++ [j]) = some t) (i j : Nat) :
    place [] q ts.length j (replayKept cs p i ts) = some ts := by
  induction ts generalizing i j with
  | nil => rfl
  | cons t ts ih =>
      have hrest := ih (fun u hu => hts u (List.mem_cons_of_mem t hu)) (i + 1) (j + 1)
      rw [replayKept, hcs i, List.length_cons]
      simp only [Bool.false_eq_true, if_false]
      rw [place_of_kept rfl (hts t List.mem_cons_self i j), hrest]
      rfl

/-- A tree to which no change belongs stays as it is. -/
theorem replayAt_unchanged {t : Tree} (hcs : ∀ c ∈ cs, ¬ c.Within p q) :
    replayAt cs p t q = some t := by
  induction t generalizing p q with
  | absent => rfl
  | node h ts ih =>
      have hpart := Change.part_eq_nil_iff.mpr hcs
      have hreplacement : cs.findSome? (Change.replacement? p) = none := by
        rw [← Change.findSome?_part, hpart]
        rfl
      have hinserted : cs.filterMap (Change.insertion? q) = [] := by
        rw [← Change.filterMap_part fun c x => Change.within_of_insertion?, hpart]
        rfl
      have hdeletes (i : Nat) : cs.any (Change.deletes (p ++ [i])) = false := by
        rw [← Change.any_part, hpart]
        rfl
      have hts : ∀ t ∈ ts, ∀ i j, replayAt cs (p ++ [i]) t (q ++ [j]) = some t := by
        intro t ht i j
        exact ih t ht fun c hc hwithin => hcs c hc hwithin.of_child
      rw [replayAt, hreplacement]
      simp only [hinserted, length_replayKept hdeletes, List.length_nil, Nat.zero_add,
        place_replayKept hdeletes hts, Option.map_some]

theorem replay_nil (t : Tree) : replay [] t = some t :=
  replayAt_unchanged fun _ hc => absurd hc List.not_mem_nil

end Tree

namespace Marked

variable {align : Aligner} {limit : Int}

/-- Replaying the changes between two nodes makes the new one out of the old one, whatever the
hashes. -/
theorem replayAt_changes (halign : align.Covers) {fuel : Nat} {cs : List Change} {p q : Path}
    {f t : Marked UInt64} (hcs : Change.part p q cs = changes align limit fuel p q f t) :
    ∃ u, Tree.replayAt cs p f.tree q = some u ∧ u.Same t.tree := by
  induction fuel generalizing p q f t with
  | zero =>
      rw [f.tree_eq]
      exact ⟨t.tree, Tree.replayAt_of_replace hcs, .refl _⟩
  | succ fuel ih =>
      rw [changes_succ] at hcs
      by_cases hsame : f.same limit t = true
      · rw [if_pos hsame] at hcs
        refine ⟨f.tree, Tree.replayAt_unchanged (Change.part_eq_nil_iff.mp hcs), ?_⟩
        exact Tree.same_of_compare f.complete_tree t.complete_tree (same_eq_true_iff.mp hsame).2
      · rw [if_neg hsame] at hcs
        by_cases hagrees : f.agrees t = true
        · rw [if_neg (by simp [hagrees])] at hcs
          have hcovers := covers_matchChildren halign f t
          have hpairs : ∀ i a j b, .pair i a j b ∈ f.matchChildren align t →
              ∃ u, Tree.replayAt cs (p ++ [i]) a.tree (q ++ [j]) = some u ∧ u.Same b.tree := by
            -- What belongs to the pair among all changes is what belongs to it among those here.
            intro i a j b hm
            apply ih
            rw [← Change.part_child, hcs,
              Match.part_flatMap_changes (within_of_mem_changes fuel) hcovers.apart hm]
          obtain ⟨us, hus, hall⟩ := Match.replayAt_matched (within_of_mem_changes fuel) hcovers hcs
            hpairs f.head
          obtain ⟨hkind, hbytes⟩ := agrees_eq_true_iff.mp hagrees
          rw [f.tree_eq, t.tree_eq]
          exact ⟨_, hus, .node (Head.same_of_payloadBytes hkind hbytes) hall⟩
        · rw [if_pos (by simpa using hagrees)] at hcs
          rw [f.tree_eq] at hcs ⊢
          exact ⟨t.tree, Tree.replayAt_of_replace hcs, .refl _⟩

end Marked

namespace Tree

/-- Replayed, the changes make of the old tree one that compares with the new one as zero; and there
are none exactly if the old tree does so itself. -/
def Rebuilds (limit : Int) (old new : Tree) (cs : List Change) : Prop :=
  (∃ u, old.replay cs = some u ∧ u.compare limit new = .ok 0) ∧
    (cs = [] ↔ old.compare limit new = .ok 0)

theorem rebuilds_changes {align : Aligner} (halign : align.Covers) {limit : Int} (fuel : Nat)
    {f t : Marked UInt64} (ht : t.tree.validate limit = .ok ())
    (hvalue : f.tree.compare limit t.tree = .ok 0 → f.value = t.value) :
    Rebuilds limit f.tree t.tree (Marked.changes align limit (fuel + 1) [] [] f t) := by
  have hpart : Change.part [] [] (Marked.changes align limit (fuel + 1) [] [] f t) =
      Marked.changes align limit (fuel + 1) [] [] f t :=
    Change.part_eq_self (Marked.within_of_mem_changes (fuel + 1) [] [] f t)
  obtain ⟨u, hu, hsame⟩ := Marked.replayAt_changes halign hpart
  refine ⟨⟨u, hu, compare_of_same ht hsame⟩, ?_, ?_⟩
  · -- Replaying nothing gives the old tree itself.
    intro hnil
    rw [hnil] at hu
    cases (replay_nil f.tree).symm.trans hu
    exact compare_of_same ht hsame
  · intro hzero
    rw [Marked.changes_succ, if_pos (Marked.same_eq_true_iff.mpr ⟨hvalue hzero, hzero⟩)]

theorem hash_congr {hasher : Hasher} {t u : Tree} (h : t.Same u) :
    t.fold 0 (fun h cs => hasher (h.hashInput cs)) =
      u.fold 0 fun h cs => hasher (h.hashInput cs) := by
  refine h.fold 0 fun h k vs hk => ?_
  rw [Head.hashInput, Head.hashInput, hk.kind, hk.payloadBytes]

/-- Differences of valid trees can be replayed, for every hash function on byte strings and, beyond
these, for all marks of the nodes that are alike at the roots of trees that compare as zero. -/
theorem diff_rebuilds {align : Aligner} (halign : align.Covers) {limit : Int} {old new : Tree}
    (hold : old.validate limit = .ok ()) (hnew : new.validate limit = .ok ()) :
    (∀ hasher, ∃ cs, old.diffWith align hasher limit new = .ok cs ∧ Rebuilds limit old new cs) ∧
      ∀ f t : Marked UInt64, f.tree = old → t.tree = new →
        (old.compare limit new = .ok 0 → f.value = t.value) →
        Rebuilds limit old new (Marked.changes align limit (old.depth + 1) [] [] f t) := by
  constructor
  · intro hasher
    obtain ⟨f, hf⟩ : ∃ f, old.hashes hasher limit = .ok f := markAt_succeeds hold
    obtain ⟨t, ht⟩ : ∃ t, new.hashes hasher limit = .ok t := markAt_succeeds hnew
    obtain ⟨rfl, hfvalue⟩ := markAt_eq_ok 0 hf
    obtain ⟨rfl, htvalue⟩ := markAt_eq_ok 0 ht
    refine ⟨_, by rw [diffWith, hold, hnew, hf, ht]; rfl, rebuilds_changes halign _ hnew ?_⟩
    intro hzero
    rw [hfvalue, htvalue, hash_congr (same_of_compare f.complete_tree t.complete_tree hzero)]
  · rintro f t rfl rfl hvalue
    exact rebuilds_changes halign _ hnew hvalue

/-- A block in which a statement is deleted, a false branch is added and a number is replaced, under
the hash and the aligner of `diff`. -/
theorem diff_rebuilds_block :
    let number (n : Int64) := node .expression [node (.integer n) []]
    let old := node .block [number 1, node .ifElse [node .null [], number 2], number 3]
    let new := node .block [node .ifElse [node .null [], number 4, number 5], number 3]
    (old.validate 3 = .ok () ∧ new.validate 3 = .ok ()) ∧
      ∃ cs, old.diff 3 new = .ok cs ∧ cs ≠ [] ∧
        ∃ u, old.replay cs = some u ∧ u.compare 3 new = .ok 0 := by
  intro number old new
  have hold : old.validate 3 = .ok () := rfl
  have hnew : new.validate 3 = .ok () := rfl
  have hcompare : old.compare 3 new ≠ .ok 0 := by decide
  obtain ⟨cs, hcs, hreplay, hempty⟩ := (diff_rebuilds Aligner.covers_short hold hnew).1 fnv1a
  exact ⟨⟨hold, hnew⟩, cs, hcs, fun hnil => hcompare (hempty.mp hnil), hreplay⟩

end Tree

end Arbor
