import Arbor.Proofs.Tree.Verdict

/-! Comparisons in both directions agree up to the sign, on broken trees too. -/
namespace Arbor

/-- Of two checks whose faults are of one class, either may come first. -/
theorem verdict_then_comm {x y : Except Fault Unit}
    (h : ∀ f g, x = .error f → y = .error g → f.cls = g.cls) :
    verdict (x >>= fun _ => y) = verdict (y >>= fun _ => x) := by
  cases x with
  | ok u =>
      cases y with
      | ok v => rfl
      | error g => rfl
  | error f =>
      cases y with
      | ok v => rfl
      | error g => exact congrArg Except.error (h f g rfl rfl)

theorem Head.comparePayload_swap {h k : Head} (hkind : h.kind = k.kind) :
    k.comparePayload h = (h.comparePayload k).swap := by
  rw [comparePayload_eq hkind, comparePayload_eq hkind.symm]
  exact Std.OrientedCmp.eq_swap

namespace Tree

variable {limit : Int} {depth : Nat}

theorem verdict_checkBoth_swap (k : Kind) (cs ds : List Tree) :
    verdict (checkBoth k ds cs) = verdict (checkBoth k cs ds) := by
  unfold checkBoth
  by_cases hif : k = .ifElseStatement
  · rw [if_pos hif, if_pos hif]
    cases check k cs with
    | ok u => cases check k ds <;> rfl
    | error f => cases check k ds <;> rfl
  · rw [if_neg hif, if_neg hif]
    cases k.admits cs.length with
    | false => cases k.admits ds.length <;> rfl
    | true =>
        cases k.admits ds.length with
        | false => rfl
        | true =>
            -- only a child can be missing here, whichever list is looked at first
            apply verdict_then_comm
            intro f g hf hg
            rw [checkChildren_error_cls hf, checkChildren_error_cls hg]

theorem check_of_checkBoth {k : Kind} {cs ds : List Tree} (h : checkBoth k cs ds = .ok ()) :
    check k cs = .ok () := by
  unfold checkBoth at h
  split at h
  · split at h
    next hcs hds => exact hcs
    next => cases h
  · split at h
    · cases h
    · split at h
      · cases h
      next hcount hcount' =>
        rw [check_bind_eq_ok_iff] at h
        exact check_eq_ok_iff.mpr ⟨by simpa using hcount, h.1⟩

theorem verdict_compareAll_swap {cs : List Tree}
    (hcs : ∀ c ∈ cs, ∀ d,
      verdict (compareAt limit depth d c) = verdict (compareAt limit depth c d))
    (ds : List Tree) :
    verdict (compareAll limit depth ds cs) = verdict (compareAll limit depth cs ds) := by
  induction cs generalizing ds with
  | nil => cases ds <;> rfl
  | cons c cs ih =>
      cases ds with
      | nil => rfl
      | cons d ds =>
          rw [compareAll, compareAll]
          apply verdict_bind (hcs c List.mem_cons_self d)
          intro x y hx hy
          -- the results are gaps of the trees, so one ends the walk exactly if the other does
          have hxy : x = -y := by
            rw [gap_of_compareAt hx, gap_of_compareAt hy]
            exact gap_swap c d
          by_cases hzero : y = 0
          · rw [if_neg (by omega), if_neg (by omega)]
            exact ih (fun e he => hcs e (List.mem_cons_of_mem c he)) ds
          · rw [if_pos (by omega), if_pos (by omega)]
            rfl

/-- Whether two trees can be compared does not depend on the direction, and neither does the class
of the fault: at each node both trees are checked before anything can differ. -/
theorem verdict_compareAt_swap (t u : Tree) :
    verdict (compareAt limit depth u t) = verdict (compareAt limit depth t u) := by
  induction t generalizing u depth with
  | absent => cases u <;> rfl
  | node h cs ih =>
      cases u with
      | absent => rfl
      | node k ds =>
          rw [compareAt, compareAt]
          apply verdict_bind rfl
          intro _ _ _ _
          by_cases hkind : h.kind = k.kind
          · rw [if_neg (not_not_intro hkind), if_neg (not_not_intro hkind.symm),
              Head.comparePayload_swap hkind, hkind]
            cases h.comparePayload k with
            | lt => rfl
            | gt => rfl
            | eq =>
                apply verdict_bind (verdict_checkBoth_swap k.kind cs ds)
                intro _ _ _ _
                by_cases hcount : k.kind ≠ .ifElseStatement ∧ cs.length ≠ ds.length
                · rw [if_pos hcount, if_pos ⟨hcount.1, hcount.2.symm⟩]
                  rfl
                · rw [if_neg hcount, if_neg fun hcount' => hcount ⟨hcount'.1, hcount'.2.symm⟩]
                  exact verdict_compareAll_swap (fun c hc => ih c hc) ds
          · rw [if_pos hkind, if_pos fun hkind' => hkind hkind'.symm]
            rfl

theorem compareAt_swap {t u : Tree} {x : Int} (h : compareAt limit depth t u = .ok x) :
    compareAt limit depth u t = .ok (-x) := by
  have hswap : verdict (compareAt limit depth u t) = verdict (compareAt limit depth t u) :=
    verdict_compareAt_swap t u
  rw [h] at hswap
  obtain ⟨y, hy⟩ := verdict_eq_ok_iff.mp hswap
  rw [hy, gap_of_compareAt hy, gap_of_compareAt h, gap_swap]

theorem exists_of_compareAll_zero {cs ds : List Tree} (hcs : .absent ∉ cs)
    (h : compareAll limit depth cs ds = .ok 0) :
    ∀ c ∈ cs, ∃ d, compareAt limit depth c d = .ok 0 := by
  induction cs generalizing ds with
  | nil => simp
  | cons c cs ih =>
      cases ds with
      | nil =>
          -- a tree that the other list lacks would count by its ordinal
          cases c with
          | absent => exact absurd List.mem_cons_self hcs
          | node l es =>
              have hpos := l.kind.ordinal_pos
              have hzero : (l.kind.ordinal : Int) = 0 := Except.ok.inj h
              omega
      | cons d ds =>
          obtain ⟨x, hx, h⟩ := bind_eq_ok_iff.mp h
          by_cases hzero : x = 0
          · rw [if_neg (not_not_intro hzero)] at h
            intro e he
            rcases List.mem_cons.mp he with rfl | he
            · exact ⟨d, hzero ▸ hx⟩
            · exact ih (fun hmem => hcs (List.mem_cons_of_mem c hmem)) h e he
          · rw [if_pos hzero] at h
            exact absurd (Except.ok.inj h) hzero

/-- Nodes that compare as zero are within the limit, well shaped and have children that do so. -/
theorem compareAt_node_zero {h k : Head} {cs ds : List Tree}
    (hzero : compareAt limit depth (.node h cs) (.node k ds) = .ok 0) :
    checkDepth limit depth = .ok () ∧ check h.kind cs = .ok () ∧
      compareAll limit (depth + 1) cs ds = .ok 0 := by
  rw [compareAt, check_bind_eq_ok_iff] at hzero
  obtain ⟨hdepth, hzero⟩ := hzero
  split at hzero
  next hkind =>
    have hordinal := Except.ok.inj hzero
    exact absurd (Kind.ordinal_inj (by omega)) hkind
  next hkind =>
    split at hzero
    · cases hzero
    · cases hzero
    · rw [check_bind_eq_ok_iff] at hzero
      obtain ⟨hboth, hzero⟩ := hzero
      split at hzero
      next hcount =>
        have hlength := Except.ok.inj hzero
        exact absurd (by omega) hcount.2
      next => exact ⟨hdepth, check_of_checkBoth hboth, hzero⟩

theorem validateAt_of_compareAt_zero {t u : Tree} (h : compareAt limit depth t u = .ok 0) :
    validateAt limit depth t = .ok () := by
  induction t generalizing u depth with
  | absent => simp [compareAt] at h
  | node l cs ih =>
      cases u with
      | absent => simp [compareAt] at h
      | node k ds =>
          obtain ⟨hdepth, hcheck, hchildren⟩ := compareAt_node_zero h
          refine validateAt_node_iff.mpr ⟨checkDepth_eq_ok_iff.mp hdepth, hcheck, ?_⟩
          intro c hc
          obtain ⟨d, hd⟩ := exists_of_compareAll_zero (check_eq_ok_iff_fits.mp hcheck).2.1 hchildren c hc
          exact ih c hc hd

/-- Two trees of any shape under any limit. Compared in the other direction they meet with a fault
of the same class or with the negated result, and if the result is zero both of them are valid. -/
theorem compare_antisymmetric (limit : Int) (a b : Tree) :
    verdict (b.compare limit a) = verdict (a.compare limit b) ∧
      (∀ x, a.compare limit b = .ok x → b.compare limit a = .ok (-x)) ∧
      (a.compare limit b = .ok 0 → a.validate limit = .ok () ∧ b.validate limit = .ok ()) := by
  refine ⟨verdict_compareAt_swap a b, fun x hx => compareAt_swap hx, ?_⟩
  intro hzero
  exact ⟨validateAt_of_compareAt_zero hzero, validateAt_of_compareAt_zero (compareAt_swap hzero)⟩

end Tree

end Arbor
