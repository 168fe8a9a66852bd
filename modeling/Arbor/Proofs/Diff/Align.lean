import Arbor.Diff.Align
import Mathlib.Data.List.Infix

/-! The script between two lists starts from the one and ends with the other. -/
namespace Arbor

section Common

variable {α : Type} [DecidableEq α]

theorem commonStart_isPrefix (as bs : List α) :
    commonStart as bs <+: as ∧ commonStart as bs <+: bs := by
  induction as generalizing bs with
  | nil => exact ⟨List.nil_prefix, List.nil_prefix⟩
  | cons a as ih =>
      cases bs with
      | nil => exact ⟨List.nil_prefix, List.nil_prefix⟩
      | cons b bs =>
          rw [commonStart]
          split
          next hab =>
            rw [← hab, List.prefix_cons_inj, List.prefix_cons_inj]
            exact ih bs
          next => exact ⟨List.nil_prefix, List.nil_prefix⟩

theorem commonEnd_isSuffix (as bs : List α) : commonEnd as bs <:+ as ∧ commonEnd as bs <:+ bs := by
  obtain ⟨hleft, hright⟩ := commonStart_isPrefix as.reverse bs.reverse
  exact ⟨List.reverse_prefix.mp (by rwa [commonEnd, List.reverse_reverse]),
    List.reverse_prefix.mp (by rwa [commonEnd, List.reverse_reverse])⟩

end Common

theorem dropEnd_append_of_suffix {α : Type} {as bs : List α} (h : as <:+ bs) :
    dropEnd as.length bs ++ as = bs :=
  List.suffix_iff_eq_append.mp h

theorem append_dropEnd_append {α : Type} {start tail items : List α} (hstart : start <+: items)
    (htail : tail <:+ items.drop start.length) (rest : List α) :
    start ++ (dropEnd tail.length (items.drop start.length) ++ (tail ++ rest)) = items ++ rest := by
  rw [← List.append_assoc (dropEnd _ _), dropEnd_append_of_suffix htail, ← List.append_assoc,
    List.prefix_iff_eq_append.mp hstart]

namespace Script

variable {α : Type}

/-- The script starts from one list and ends with another. -/
structure Turns (s : Script α) (a b : List α) : Prop where
  source : s.source = a
  target : s.target = b

variable {s u : Script α} {a b c d : List α}

theorem Turns.append (hs : Turns s a b) (hu : Turns u c d) : Turns (s ++ u) (a ++ c) (b ++ d) :=
  ⟨by rw [Script.source, List.flatMap_append, ← hs.source, ← hu.source]; rfl,
    by rw [Script.target, List.flatMap_append, ← hs.target, ← hu.target]; rfl⟩

theorem source_cons (e : Edit α) (s : Script α) :
    source (e :: s) = (if e.move = .insert then [] else e.items) ++ s.source := rfl

theorem target_cons (e : Edit α) (s : Script α) :
    target (e :: s) = (if e.move = .delete then [] else e.items) ++ s.target := rfl

theorem turns_keep (a : List α) : Turns [⟨.keep, a⟩] a a :=
  ⟨List.append_nil a, List.append_nil a⟩

theorem turns_delete (a : List α) : Turns [⟨.delete, a⟩] a [] :=
  ⟨List.append_nil a, rfl⟩

theorem turns_insert (b : List α) : Turns [⟨.insert, b⟩] [] b :=
  ⟨rfl, List.append_nil b⟩

theorem turns_replace (a b : List α) : Turns [⟨.delete, a⟩, ⟨.insert, b⟩] a b := by
  have h := (turns_delete a).append (turns_insert b)
  rwa [List.append_nil] at h

theorem turns_common (a : List α) [Decidable (a = [])] :
    Turns (if a = [] then [] else [⟨.keep, a⟩]) a a := by
  split
  next ha =>
    rw [ha]
    exact ⟨rfl, rfl⟩
  next => exact turns_keep a

theorem turns_around {inner : Script α} {head tail a b : List α} (hhead : head <+: a ∧ head <+: b)
    (htail : tail <:+ a.drop head.length ∧ tail <:+ b.drop head.length)
    (hinner : Turns inner (dropEnd tail.length (a.drop head.length))
      (dropEnd tail.length (b.drop head.length))) :
    Turns ((if head = [] then [] else [⟨.keep, head⟩]) ++ inner ++
      (if tail = [] then [] else [⟨.keep, tail⟩])) a b := by
  have h := ((turns_common head).append hinner).append (turns_common tail)
  have hleft := append_dropEnd_append hhead.1 htail.1 []
  have hright := append_dropEnd_append hhead.2 htail.2 []
  rw [List.append_nil, List.append_nil, ← List.append_assoc] at hleft hright
  rwa [hleft, hright] at h

/-- The counts of pending edits tell where there are none. -/
structure Pending.Sound (p : Pending α) : Prop where
  deleted : p.deletions = 0 → p.deleted = []
  inserted : p.insertions = 0 → p.inserted = []

theorem turns_edits {p : Pending α} (hp : p.Sound) : Turns p.edits p.deleted p.inserted := by
  have hdeleted : Turns (if p.deletions = 0 then [] else [⟨.delete, p.deleted⟩]) p.deleted [] := by
    split
    next hzero =>
      rw [hp.deleted hzero]
      exact ⟨rfl, rfl⟩
    next => exact turns_delete _
  have hinserted : Turns (if p.insertions = 0 then [] else [⟨.insert, p.inserted⟩]) [] p.inserted := by
    split
    next hzero =>
      rw [hp.inserted hzero]
      exact ⟨rfl, rfl⟩
    next => exact turns_insert _
  have h := hdeleted.append hinserted
  rwa [List.append_nil] at h

/-- A script that has its last edit first: keeping more items at its end. -/
theorem turns_keepMore (hs : Turns s.reverse a b) (items : List α) :
    Turns (keepMore items s).reverse (a ++ items) (b ++ items) := by
  unfold keepMore
  split
  next before done =>
    rw [← hs.source, ← hs.target]
    constructor
    · simp [Script.source]
    · simp [Script.target]
  next =>
    rw [List.reverse_cons]
    exact hs.append (turns_keep items)

theorem turns_dropEmptyLast (hs : Turns s.reverse a b) : Turns (dropEmptyLast s).reverse a b := by
  unfold dropEmptyLast
  split
  next move done =>
    rw [← hs.source, ← hs.target]
    constructor
    · simp [Script.source]
    · simp [Script.target]
  next => exact hs

variable [DecidableEq α]

/-- Settling puts what is pending and what is kept after it at the end of a script. -/
theorem turns_settle (hs : Turns s.reverse a b) {p : Pending α} (hp : p.Sound) (kept : List α) :
    Turns (settle s p kept).reverse (a ++ p.deleted ++ kept) (b ++ p.inserted ++ kept) := by
  unfold settle
  split
  next =>
    dsimp only
    generalize hstart : (if p.deletions ≠ 0 ∧ p.insertions ≠ 0 then
      commonStart p.inserted p.deleted else []) = start
    generalize htail : (if p.deletions ≠ 0 ∧ p.insertions ≠ 0 then
      commonEnd (p.inserted.drop start.length) (p.deleted.drop start.length) else []) = tail
    have hstart : start <+: p.inserted ∧ start <+: p.deleted := by
      rw [← hstart]
      split
      · exact commonStart_isPrefix _ _
      · exact ⟨List.nil_prefix, List.nil_prefix⟩
    have htail : tail <:+ p.inserted.drop start.length ∧ tail <:+ p.deleted.drop start.length := by
      rw [← htail]
      split
      · exact commonEnd_isSuffix _ _
      · exact ⟨List.nil_suffix, List.nil_suffix⟩
    have hdone : Turns (if start = [] then s else keepMore start s).reverse
        (a ++ start) (b ++ start) := by
      split
      next hnil =>
        rw [hnil, List.append_nil, List.append_nil]
        exact hs
      next => exact turns_keepMore hs start
    have hsound : Pending.Sound { p with
        deleted := dropEnd tail.length (p.deleted.drop start.length)
        inserted := dropEnd tail.length (p.inserted.drop start.length) } := by
      constructor
      · intro hzero
        simp [hp.deleted hzero, dropEnd]
      · intro hzero
        simp [hp.inserted hzero, dropEnd]
    -- What both sides share at either end is kept, and the rest is deleted and inserted as before.
    have h := (hdone.append (turns_edits hsound)).append (turns_keep (tail ++ kept))
    simp only [List.append_assoc, append_dropEnd_append hstart.1 htail.1,
      append_dropEnd_append hstart.2 htail.2] at h
    simpa using h
  next =>
    split
    next =>
      have h := (hs.append (turns_edits hp)).append (turns_keep kept)
      simpa using h
    next hcount hone =>
      rw [hp.deleted (by omega), hp.inserted (by omega), List.append_nil, List.append_nil]
      exact turns_keepMore hs kept

/-- Joining runs: `s` has its last edit first, and what is pending comes before the rest. -/
theorem turns_joinRuns (rest : Script α) (hs : Turns s.reverse a b) {p : Pending α} (hp : p.Sound) :
    Turns (joinRuns s p rest).reverse (a ++ p.deleted ++ rest.source)
      (b ++ p.inserted ++ rest.target) := by
  induction rest generalizing s a b p with
  | nil => exact turns_settle hs hp []
  | cons e rest ih =>
      obtain ⟨move, items⟩ := e
      cases move with
      | keep =>
          have hnone : Pending.Sound ({} : Pending α) := ⟨fun _ => rfl, fun _ => rfl⟩
          have h := ih (turns_settle hs hp items) hnone
          simp only [List.append_nil, List.append_assoc] at h ⊢
          exact h
      | delete =>
          have hsound : Pending.Sound { p with
              deletions := p.deletions + 1, deleted := p.deleted ++ items } :=
            ⟨fun hzero => absurd hzero (Nat.succ_ne_zero _), hp.inserted⟩
          have h := ih hs hsound
          simp only [List.append_assoc] at h ⊢
          exact h
      | insert =>
          have hsound : Pending.Sound { p with
              insertions := p.insertions + 1, inserted := p.inserted ++ items } :=
            ⟨hp.deleted, fun hzero => absurd hzero (Nat.succ_ne_zero _)⟩
          have h := ih hs hsound
          simp only [List.append_assoc] at h ⊢
          exact h

theorem turns_shift (before : Edit α) (rest : Script α) :
    Turns (shift before rest).1 (source (before :: rest)) (target (before :: rest)) := by
  fun_induction shift before rest with
  | case1 before => exact ⟨rfl, rfl⟩
  | case2 before edit => exact ⟨rfl, rfl⟩
  | case3 before edit after rest h body ih =>
      obtain ⟨hbefore, hafter, hsuffix⟩ := h
      obtain ⟨items, hitems⟩ := List.isSuffixOf_iff_suffix.mp hsuffix
      have hbody : body = before.items ++ items :=
        congrArg (before.items ++ ·) (List.append_cancel_right
          ((dropEnd_append_of_suffix ⟨items, hitems⟩).trans hitems.symm))
      constructor
      · rw [source_cons, ih.source]
        simp only [source_cons, hbefore, hafter, hbody, ← hitems]
        by_cases hmove : edit.move = .insert
        · simp [hmove]
        · simp [hmove]
      · rw [target_cons, ih.target]
        simp only [target_cons, hbefore, hafter, hbody, ← hitems]
        by_cases hmove : edit.move = .delete
        · simp [hmove]
        · simp [hmove]
  | case4 before edit after rest h h' body ih =>
      obtain ⟨hbefore, hafter, hprefix⟩ := h'
      obtain ⟨items, hitems⟩ := List.isPrefixOf_iff_prefix.mp hprefix
      have hbody : body = items ++ after.items :=
        congrArg (· ++ after.items) (List.append_cancel_left
          ((List.prefix_iff_eq_append.mp ⟨items, hitems⟩).trans hitems.symm))
      constructor
      · rw [source_cons, ih.source]
        simp only [source_cons, hbefore, hafter, hbody, ← hitems]
        by_cases hmove : edit.move = .insert
        · simp [hmove]
        · simp [hmove]
      · rw [target_cons, ih.target]
        simp only [target_cons, hbefore, hafter, hbody, ← hitems]
        by_cases hmove : edit.move = .delete
        · simp [hmove]
        · simp [hmove]
  | case5 before edit after rest h h' shifted changed hshift ih =>
      rw [hshift] at ih
      exact ⟨by rw [source_cons, ih.source]; rfl, by rw [target_cons, ih.target]; rfl⟩

theorem turns_sweep (s : Script α) : Turns (sweep s).1 s.source s.target := by
  have hstart : Turns (α := α) (List.reverse []) [] [] := ⟨rfl, rfl⟩
  have h := turns_dropEmptyLast (turns_joinRuns s hstart (p := {}) ⟨fun _ => rfl, fun _ => rfl⟩)
  unfold sweep
  split
  next hnil =>
    rw [hnil] at h
    exact h
  next e rest hcons =>
    rw [hcons] at h
    have hshift := turns_shift e rest
    rw [h.source, h.target] at hshift
    exact hshift

theorem turns_tidyWith (fuel : Nat) (s : Script α) :
    Turns (tidyWith fuel s) s.source s.target := by
  induction fuel generalizing s with
  | zero => exact ⟨rfl, rfl⟩
  | succ fuel ih =>
      have hsweep := turns_sweep s
      rcases hs : sweep s with ⟨swept, changed⟩
      rw [hs] at hsweep
      simp only [tidyWith, hs]
      split
      next =>
        have hrest := ih swept
        rwa [hsweep.source, hsweep.target] at hrest
      next => exact hsweep

theorem Turns.tidy (hs : Turns s a b) : Turns s.tidy a b := by
  rw [← hs.source, ← hs.target]
  exact turns_tidyWith _ s

end Script

namespace Align

variable {α : Type}

structure Split.Cuts (s : Split α) (a b : List α) : Prop where
  left : s.leftBefore ++ (s.common ++ s.leftAfter) = a
  right : s.rightBefore ++ (s.common ++ s.rightAfter) = b

theorem Split.Cuts.swap {s : Split α} {a b : List α} (h : s.Cuts a b) : s.swap.Cuts b a :=
  ⟨h.right, h.left⟩

theorem cuts_better {found : Split α} {best : Option (Split α)} {seen : Bool} {s : Split α}
    (hs : (if seen then
        match best with
        | none => if found.common = [] then none else some found
        | some b => if b.common.length < found.common.length then some found else some b
      else best) = some s) {a b : List α}
    (hfound : found.Cuts a b) (hbest : ∀ s, best = some s → s.Cuts a b) : s.Cuts a b := by
  split at hs
  · split at hs
    · split at hs
      · cases hs
      · cases hs
        exact hfound
    · split at hs
      · cases hs
        exact hfound
      · exact hbest s hs
  · exact hbest s hs

theorem cuts_longer {first second : Option (Split α)} {s : Split α}
    (hs : (match first, second with
      | some s, some t => if t.common.length < s.common.length then some s else some t
      | some s, none => some s
      | none, t => t) = some s) {a b : List α}
    (hfirst : ∀ s, first = some s → s.Cuts a b) (hsecond : ∀ s, second = some s → s.Cuts a b) :
    s.Cuts a b := by
  split at hs
  · split at hs
    · exact hfirst s hs
    · exact hsecond s hs
  · exact hfirst s hs
  · exact hsecond s hs

variable [DecidableEq α]

theorem take_append_of_indexOf {part as : List α} {i : Nat} (h : indexOf part as = some i) :
    as.take i ++ (part ++ as.drop (i + part.length)) = as := by
  induction as generalizing i with
  | nil =>
      rw [indexOf] at h
      split at h
      next hnil =>
        cases h
        simp [hnil]
      next => cases h
  | cons a as ih =>
      rw [indexOf] at h
      split at h
      next hprefix =>
        cases h
        rw [List.take_zero, List.nil_append, Nat.zero_add]
        exact List.prefix_iff_eq_append.mp (List.isPrefixOf_iff_prefix.mp hprefix)
      next =>
        obtain ⟨k, hk, rfl⟩ := Option.map_eq_some_iff.mp h
        rw [List.take_succ_cons, Nat.add_right_comm, List.drop_succ_cons, List.cons_append, ih hk]

/-- The split around a place of either list, as far as they agree on both sides of it, the reversed
`passed` being what comes before in the short list. -/
theorem cuts_around (long passed short : List α) (i : Nat) :
    let ahead := commonStart (long.drop i) short
    let behind := (commonStart (long.take i).reverse passed).reverse
    Split.Cuts
      { leftBefore := dropEnd behind.length (long.take i)
        leftAfter := (long.drop i).drop ahead.length
        rightBefore := (passed.drop behind.length).reverse
        rightAfter := short.drop ahead.length
        common := behind ++ ahead }
      long (passed.reverse ++ short) := by
  intro ahead behind
  obtain ⟨hlong, hshort⟩ := commonStart_isPrefix (long.drop i) short
  obtain ⟨hbefore, hpassed⟩ := commonStart_isPrefix (long.take i).reverse passed
  have hbehind : behind <:+ long.take i := by
    rw [← List.reverse_prefix, List.reverse_reverse]
    exact hbefore
  have hreverse : (passed.drop behind.length).reverse ++ behind = passed.reverse := by
    rw [← List.reverse_append, List.length_reverse, List.prefix_iff_eq_append.mp hpassed]
  constructor
  · rw [List.append_assoc behind, ← List.append_assoc (dropEnd _ _),
      dropEnd_append_of_suffix hbehind, List.prefix_iff_eq_append.mp hlong, List.take_append_drop]
  · rw [List.append_assoc behind, ← List.append_assoc (List.reverse _), hreverse,
      List.prefix_iff_eq_append.mp hshort]

theorem cuts_bestSplit {long seed : List α} {i : Nat} {best : Option (Split α)}
    {passed short : List α} (hbest : ∀ s, best = some s → s.Cuts long (passed.reverse ++ short))
    {s : Split α} (hs : bestSplit long seed i best passed short = some s) :
    s.Cuts long (passed.reverse ++ short) := by
  induction short generalizing best passed with
  | nil => exact cuts_better hs (cuts_around long passed [] i) hbest
  | cons c rest ih =>
      have hmoved : (c :: passed).reverse ++ rest = passed.reverse ++ c :: rest := by
        rw [List.reverse_cons, List.append_assoc, List.singleton_append]
      rw [← hmoved]
      refine ih ?_ hs
      intro u hu
      rw [hmoved]
      exact cuts_better hu (cuts_around long passed (c :: rest) i) hbest

theorem cuts_seededSplit? {long short : List α} {i : Nat} {s : Split α}
    (hs : seededSplit? long short i = some s) : s.Cuts long short := by
  obtain ⟨hs, -⟩ := Option.filter_eq_some_iff.mp hs
  refine cuts_bestSplit ?_ hs
  intro u hu
  cases hu

theorem cuts_halfMatch? {a b : List α} {s : Split α} (hs : halfMatch? a b = some s) :
    s.Cuts a b := by
  unfold halfMatch? at hs
  by_cases hlonger : b.length < a.length
  · simp only [if_pos hlonger] at hs
    split at hs
    · cases hs
    · obtain ⟨u, hu, rfl⟩ := Option.map_eq_some_iff.mp hs
      exact cuts_longer hu (fun _ => cuts_seededSplit?) fun _ => cuts_seededSplit?
  · simp only [if_neg hlonger] at hs
    split at hs
    · cases hs
    · obtain ⟨u, hu, rfl⟩ := Option.map_eq_some_iff.mp hs
      exact (cuts_longer hu (fun _ => cuts_seededSplit?) fun _ => cuts_seededSplit?).swap

theorem turns_contained {part as : List α} {i : Nat} (h : indexOf part as = some i) :
    Script.Turns [⟨.delete, as.take i⟩, ⟨.keep, part⟩, ⟨.delete, as.drop (i + part.length)⟩] as part ∧
      Script.Turns [⟨.insert, as.take i⟩, ⟨.keep, part⟩, ⟨.insert, as.drop (i + part.length)⟩] part
        as := by
  have hparts := take_append_of_indexOf h
  constructor
  · have hturns := (Script.turns_delete (as.take i)).append
      ((Script.turns_keep part).append (Script.turns_delete (as.drop (i + part.length))))
    rwa [hparts, List.append_nil] at hturns
  · have hturns := (Script.turns_insert (as.take i)).append
      ((Script.turns_keep part).append (Script.turns_insert (as.drop (i + part.length))))
    rwa [hparts, List.append_nil] at hturns

/-- Lists that are split anywhere: the script starts from one and ends with the other if those of the
parts do. -/
theorem turns_halves {fuel : Nat} (ih : ∀ a b : List α, Script.Turns (scriptWith fuel a b) a b)
    (a b : List α) :
    Script.Turns
      (match halfMatch? a b with
      | some s =>
        scriptWith fuel s.leftBefore s.rightBefore ++ [⟨.keep, s.common⟩] ++
          scriptWith fuel s.leftAfter s.rightAfter
      | none =>
        match middle? a b with
        | some (x, y) =>
          scriptWith fuel (a.take x) (b.take y) ++ scriptWith fuel (a.drop x) (b.drop y)
        | none => [⟨.delete, a⟩, ⟨.insert, b⟩]) a b := by
  split
  next s hs =>
    have hcuts := cuts_halfMatch? hs
    have hturns := ((ih s.leftBefore s.rightBefore).append
      (Script.turns_keep s.common)).append (ih s.leftAfter s.rightAfter)
    rwa [List.append_assoc s.leftBefore, List.append_assoc s.rightBefore, hcuts.left,
      hcuts.right] at hturns
  next =>
    split
    next x y _ =>
      have hturns := (ih (a.take x) (b.take y)).append (ih (a.drop x) (b.drop y))
      rwa [List.take_append_drop, List.take_append_drop] at hturns
    next => exact Script.turns_replace a b

theorem turns_innerWith {fuel : Nat} (ih : ∀ a b : List α, Script.Turns (scriptWith fuel a b) a b)
    (a b : List α) : Script.Turns (innerWith (fuel + 1) a b) a b := by
  rw [innerWith]
  split
  next ha =>
    rw [ha]
    exact Script.turns_insert b
  next =>
    split
    next hb =>
      rw [hb]
      exact Script.turns_delete a
    next =>
      by_cases hlonger : b.length < a.length
      · simp only [hlonger, decide_true, if_true]
        split
        next i hindex => exact (turns_contained hindex).1
        next =>
          split
          · exact Script.turns_replace a b
          · exact turns_halves ih a b
      · simp only [hlonger, decide_false, Bool.false_eq_true, if_false]
        split
        next i hindex => exact (turns_contained hindex).2
        next =>
          split
          · exact Script.turns_replace a b
          · exact turns_halves ih a b

-- The two functions call each other with less fuel, so both are followed at once.
theorem turns_scriptWith (fuel : Nat) (a b : List α) :
    Script.Turns (scriptWith fuel a b) a b ∧ Script.Turns (innerWith fuel a b) a b := by
  induction fuel generalizing a b with
  | zero => exact ⟨Script.turns_replace a b, Script.turns_replace a b⟩
  | succ fuel ih =>
      refine ⟨?_, turns_innerWith (fun a b => (ih a b).1) a b⟩
      rw [scriptWith]
      split
      next hab =>
        rw [← hab]
        exact Script.turns_common a
      next =>
        exact (Script.turns_around (commonStart_isPrefix a b) (commonEnd_isSuffix _ _) (ih _ _).2).tidy

theorem turns_script (a b : List α) : Script.Turns (script a b) a b :=
  (turns_scriptWith _ a b).1

end Align

end Arbor
