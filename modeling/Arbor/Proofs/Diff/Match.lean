import Arbor.Diff.Basic
import Arbor.Proofs.Diff.Align
import Mathlib.Data.List.Pairwise

/-! However children are matched, each of them is used once, in order and with its place. -/
namespace Arbor

namespace Match

variable {α : Type}

def old? : Match α → Option (Nat × α)
  | pair i a _ _ => some (i, a)
  | delete i a => some (i, a)
  | insert _ _ => none

def new? : Match α → Option (Nat × α)
  | pair _ _ j b => some (j, b)
  | delete _ _ => none
  | insert j b => some (j, b)

/-- The matches use the items of two lists once and in order. -/
structure Covers (ms : List (Match α)) (as bs : List (Nat × α)) : Prop where
  old : ms.filterMap old? = as
  new : ms.filterMap new? = bs

theorem Covers.append {ms ns : List (Match α)} {as bs cs ds : List (Nat × α)}
    (hms : Covers ms as bs) (hns : Covers ns cs ds) : Covers (ms ++ ns) (as ++ cs) (bs ++ ds) :=
  ⟨by rw [List.filterMap_append, hms.old, hns.old], by rw [List.filterMap_append, hms.new, hns.new]⟩

theorem covers_deletions (as : List (Nat × α)) : Covers (deletions as) as [] := by
  constructor
  · rw [deletions, List.filterMap_map]
    exact List.filterMap_some
  · rw [deletions, List.filterMap_map]
    exact List.filterMap_eq_nil_iff.mpr fun a _ => rfl

theorem covers_insertions (bs : List (Nat × α)) : Covers (insertions bs) [] bs := by
  constructor
  · rw [insertions, List.filterMap_map]
    exact List.filterMap_eq_nil_iff.mpr fun b _ => rfl
  · rw [insertions, List.filterMap_map]
    exact List.filterMap_some

theorem covers_pairs (as bs : List (Nat × α)) :
    Covers (pairs as bs) (as.take bs.length) (bs.take as.length) := by
  induction as generalizing bs with
  | nil => exact ⟨(List.take_nil).symm, rfl⟩
  | cons a as ih =>
      cases bs with
      | nil => exact ⟨rfl, (List.take_nil).symm⟩
      | cons b bs =>
          obtain ⟨hold, hnew⟩ := ih bs
          exact ⟨congrArg (a :: ·) hold, congrArg (b :: ·) hnew⟩

theorem covers_pairsThenRest (as bs : List (Nat × α)) : Covers (pairsThenRest as bs) as bs := by
  have h := ((covers_pairs as bs).append (covers_deletions (as.drop bs.length))).append
    (covers_insertions (bs.drop as.length))
  rwa [List.append_nil, List.append_nil, List.take_append_drop, List.take_append_drop] at h

/-- Deleted items in pairs with new ones, then what is left of either list. -/
theorem covers_runs (as bs : List (Nat × α)) :
    Covers (pairs as bs ++ insertions (bs.drop as.length) ++ deletions (as.drop bs.length)) as bs := by
  have h := ((covers_pairs as bs).append (covers_insertions (bs.drop as.length))).append
    (covers_deletions (as.drop bs.length))
  rwa [List.append_nil, List.append_nil, List.take_append_drop, List.take_append_drop] at h

end Match

def Move.total (m : Move) : List (Move × Nat) → Nat
  | [] => 0
  | (k, n) :: runs => (if k = m then n else 0) + total m runs

/-- The runs delete or keep every item of the old list, and insert or keep every item of the new
one. -/
def Aligner.Covers (align : Aligner) : Prop :=
  ∀ a b, Move.total .delete (align a b) + Move.total .keep (align a b) = a.length ∧
    Move.total .insert (align a b) + Move.total .keep (align a b) = b.length

theorem Script.total_runs {α : Type} (s : Script α) :
    Move.total .delete (s.map fun e => (e.move, e.items.length)) +
        Move.total .keep (s.map fun e => (e.move, e.items.length)) = s.source.length ∧
      Move.total .insert (s.map fun e => (e.move, e.items.length)) +
        Move.total .keep (s.map fun e => (e.move, e.items.length)) = s.target.length := by
  induction s with
  | nil => exact ⟨rfl, rfl⟩
  | cons e s ih =>
      obtain ⟨move, items⟩ := e
      obtain ⟨hsource, htarget⟩ := ih
      simp only [List.map_cons, Move.total, source_cons, target_cons, List.length_append]
      cases move with
      | keep =>
          simp only [if_true, reduceCtorEq, if_false]
          omega
      | delete =>
          simp only [if_true, reduceCtorEq, if_false, List.length_nil]
          omega
      | insert =>
          simp only [if_true, reduceCtorEq, if_false, List.length_nil]
          omega

theorem Aligner.covers_short : Aligner.short.Covers := by
  intro a b
  have hturns := Align.turns_script a b
  have htotal := Script.total_runs (Align.script a b)
  rwa [hturns.source, hturns.target] at htotal

namespace Match

variable {α : Type}

-- The invariant: waiting items come before the rest of the old list, and the runs that are left add
-- up to what is left of both lists.
theorem covers_along (runs : List (Move × Nat)) {deleted as bs : List (Nat × α)}
    (hold : Move.total .delete runs + Move.total .keep runs = as.length)
    (hnew : Move.total .insert runs + Move.total .keep runs = bs.length) :
    Covers (along deleted as bs runs) (deleted ++ as) bs := by
  induction runs generalizing deleted as bs with
  | nil =>
      rw [List.eq_nil_of_length_eq_zero hold.symm, List.eq_nil_of_length_eq_zero hnew.symm,
        List.append_nil]
      exact covers_deletions deleted
  | cons run runs ih =>
      obtain ⟨move, n⟩ := run
      simp only [Move.total] at hold hnew
      cases move with
      | delete =>
          simp only [if_true, reduceCtorEq, if_false] at hold hnew
          have hrest : Covers (along (deleted ++ as.take n) (as.drop n) bs runs)
              (deleted ++ as.take n ++ as.drop n) bs :=
            ih (by rw [List.length_drop]; omega) (by omega)
          rwa [List.append_assoc, List.take_append_drop] at hrest
      | insert =>
          simp only [if_true, reduceCtorEq, if_false] at hold hnew
          have hrest : Covers (along [] as (bs.drop n) runs) as (bs.drop n) :=
            ih (by omega) (by rw [List.length_drop]; omega)
          have hrun := (covers_runs deleted (bs.take n)).append hrest
          rwa [List.length_take_of_le (by omega), List.take_append_drop] at hrun
      | keep =>
          simp only [if_true, reduceCtorEq, if_false] at hold hnew
          have hrest : Covers (along [] (as.drop n) (bs.drop n) runs) (as.drop n) (bs.drop n) :=
            ih (by rw [List.length_drop]; omega) (by rw [List.length_drop]; omega)
          have hpairs := covers_pairs (as.take n) (bs.take n)
          rw [List.length_take_of_le (by omega), List.length_take_of_le (by omega), List.take_take,
            List.take_take, Nat.min_self] at hpairs
          have hrun := ((covers_deletions deleted).append hpairs).append hrest
          rwa [List.nil_append, List.append_assoc deleted, List.take_append_drop,
            List.take_append_drop] at hrun

theorem numbered_length (n : Nat) (as : List α) : (numbered n as).length = as.length := by
  induction as generalizing n with
  | nil => rfl
  | cons a as ih => rw [numbered, List.length_cons, ih, List.length_cons]

theorem exists_of_numbered_eq_cons {n : Nat} {as : List α} {x : Nat × α} {xs : List (Nat × α)}
    (h : x :: xs = numbered n as) :
    ∃ a rest, as = a :: rest ∧ x = (n, a) ∧ xs = numbered (n + 1) rest := by
  cases as with
  | nil => cases h
  | cons a rest =>
      obtain ⟨hx, hxs⟩ := List.cons.inj h
      exact ⟨a, rest, rfl, hx, hxs⟩

theorem le_of_mem_numbered {n : Nat} {as : List α} {x : Nat × α} (hx : x ∈ numbered n as) :
    n ≤ x.1 := by
  induction as generalizing n with
  | nil => cases hx
  | cons a as ih =>
      rcases List.mem_cons.mp hx with rfl | hx
      · exact Nat.le_refl n
      · exact Nat.le_of_succ_le (ih hx)

theorem pairwise_numbered (n : Nat) (as : List α) :
    (numbered n as).Pairwise fun x y => x.1 < y.1 := by
  induction as generalizing n with
  | nil => exact .nil
  | cons a as ih => exact .cons (fun x hx => le_of_mem_numbered hx) (ih (n + 1))

/-- Two matches take different items of either list. -/
def Apart (m n : Match α) : Prop :=
  (∀ x, m.old? = some x → ∀ y, n.old? = some y → x.1 ≠ y.1) ∧
    ∀ x, m.new? = some x → ∀ y, n.new? = some y → x.1 ≠ y.1

instance : Std.Symm (@Apart α) where
  symm m n h := by
    refine ⟨?_, ?_⟩
    · intro x hx y hy
      exact (h.1 y hy x hx).symm
    · intro x hx y hy
      exact (h.2 y hy x hx).symm

theorem Covers.apart {ms : List (Match α)} {m n : Nat} {as bs : List α}
    (h : Covers ms (numbered m as) (numbered n bs)) : ms.Pairwise Apart := by
  have hold := pairwise_numbered m as
  have hnew := pairwise_numbered n bs
  rw [← h.old, List.pairwise_filterMap] at hold
  rw [← h.new, List.pairwise_filterMap] at hnew
  refine (hold.and hnew).imp fun {x y} hxy => ⟨?_, ?_⟩
  · intro a ha b hb
    exact Nat.ne_of_lt (hxy.1 a ha b hb)
  · intro a ha b hb
    exact Nat.ne_of_lt (hxy.2 a ha b hb)

end Match

theorem Marked.covers_matchChildren {align : Aligner} (halign : align.Covers)
    (f t : Marked UInt64) :
    Match.Covers (f.matchChildren align t) (Match.numbered 0 f.children)
      (Match.numbered 0 t.children) := by
  unfold matchChildren
  dsimp only
  split
  · obtain ⟨hold, hnew⟩ := halign (f.children.map value) (t.children.map value)
    rw [List.length_map] at hold hnew
    exact Match.covers_along _ (by rw [Match.numbered_length, hold])
      (by rw [Match.numbered_length, hnew])
  · exact Match.covers_pairsThenRest _ _

end Arbor
