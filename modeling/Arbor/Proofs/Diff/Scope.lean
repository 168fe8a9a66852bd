import Arbor.Proofs.Diff.Match

/-! Each change between two subtrees lies below their paths. -/
namespace Arbor

namespace Change

/-- A change of the old subtree at a path into the new one at another: it replaces a node there, or
it deletes or inserts one further down. -/
def Within (p q : Path) : Change → Prop
  | replace r _ _ => ∃ s, r = p ++ s
  | delete r _ => ∃ i s, r = p ++ i :: s
  | insert r _ => ∃ j s, r = q ++ j :: s

variable {p q : Path} {i j : Nat} {c : Change}

theorem Within.of_child (h : Within (p ++ [i]) (q ++ [j]) c) : Within p q c := by
  cases c with
  | replace r old new =>
      obtain ⟨s, rfl⟩ := h
      exact ⟨i :: s, List.append_assoc p [i] s⟩
  | delete r old =>
      obtain ⟨k, s, rfl⟩ := h
      exact ⟨i, k :: s, List.append_assoc p [i] (k :: s)⟩
  | insert r new =>
      obtain ⟨k, s, rfl⟩ := h
      exact ⟨j, k :: s, List.append_assoc q [j] (k :: s)⟩

/-- No change belongs to two children on either side. -/
theorem Within.not_both {k l : Nat} (hi : i ≠ k) (hj : j ≠ l)
    (h : Within (p ++ [i]) (q ++ [j]) c) : ¬ Within (p ++ [k]) (q ++ [l]) c := by
  cases c with
  | replace r old new =>
      obtain ⟨s, rfl⟩ := h
      simp [Within, hi]
  | delete r old =>
      obtain ⟨m, s, rfl⟩ := h
      simp [Within, hi]
  | insert r new =>
      obtain ⟨m, s, rfl⟩ := h
      simp [Within, hj]

open Classical in
noncomputable def part (p q : Path) (cs : List Change) : List Change :=
  cs.filter fun c => Within p q c

theorem mem_part {cs : List Change} : c ∈ part p q cs ↔ c ∈ cs ∧ Within p q c := by
  simp [part]

theorem part_eq_nil_iff {cs : List Change} : part p q cs = [] ↔ ∀ c ∈ cs, ¬ Within p q c := by
  simp [part]

theorem part_eq_self {cs : List Change} (h : ∀ c ∈ cs, Within p q c) : part p q cs = cs :=
  List.filter_eq_self.mpr fun c hc => by simpa using h c hc

theorem part_append (cs ds : List Change) : part p q (cs ++ ds) = part p q cs ++ part p q ds :=
  List.filter_append cs ds

theorem part_child (cs : List Change) :
    part (p ++ [i]) (q ++ [j]) (part p q cs) = part (p ++ [i]) (q ++ [j]) cs := by
  rw [part, part, part, List.filter_filter]
  refine List.filter_congr fun c _ => ?_
  by_cases hc : Within (p ++ [i]) (q ++ [j]) c
  · simp [hc, hc.of_child]
  · simp [hc]

theorem filterMap_part {β : Type} {g : Change → Option β}
    (hg : ∀ c x, g c = some x → Within p q c) (cs : List Change) :
    (part p q cs).filterMap g = cs.filterMap g := by
  rw [part, List.filterMap_filter]
  refine List.filterMap_congr fun c _ => ?_
  cases hc : g c with
  | none => exact ite_self none
  | some x => exact if_pos (by simpa using hg c x hc)

end Change

namespace Match

variable {sub : Path → Path → Marked UInt64 → Marked UInt64 → List Change} {p q : Path}
  {ms : List (Match (Marked UInt64))}

/-- The changes of a match below two paths, where `sub` gives those of a pair. -/
def changes (sub : Path → Path → Marked UInt64 → Marked UInt64 → List Change) (p q : Path) :
    Match (Marked UInt64) → List Change
  | pair i a j b => sub (p ++ [i]) (q ++ [j]) a b
  | delete i a => [.delete (p ++ [i]) a.tree]
  | insert j b => [.insert (q ++ [j]) b.tree]

def Local (sub : Path → Path → Marked UInt64 → Marked UInt64 → List Change) : Prop :=
  ∀ p q a b, ∀ c ∈ sub p q a b, c.Within p q

theorem within_of_mem_changes (hsub : Local sub) {m : Match (Marked UInt64)} {c : Change}
    (hc : c ∈ changes sub p q m) : c.Within p q := by
  cases m with
  | pair i a j b => exact (hsub _ _ a b c hc).of_child
  | delete i a =>
      rw [List.mem_singleton.mp hc]
      exact ⟨i, [], rfl⟩
  | insert j b =>
      rw [List.mem_singleton.mp hc]
      exact ⟨j, [], rfl⟩

theorem part_changes_eq_nil (hsub : Local sub) {i j : Nat} {a b : Marked UInt64}
    {m : Match (Marked UInt64)} (hm : m.Apart (pair i a j b)) :
    Change.part (p ++ [i]) (q ++ [j]) (changes sub p q m) = [] := by
  rw [Change.part_eq_nil_iff]
  intro c hc
  cases m with
  | pair k d l e =>
      exact (hsub _ _ d e c hc).not_both (hm.1 _ rfl _ rfl) (hm.2 _ rfl _ rfl)
  | delete k d =>
      rw [List.mem_singleton.mp hc]
      simp [Change.Within]
  | insert l e =>
      rw [List.mem_singleton.mp hc]
      simp [Change.Within]

/-- The changes of a list of matches that belong to one of its pairs are those of the pair. -/
theorem part_flatMap_changes (hsub : Local sub) (hms : ms.Pairwise Apart) {i j : Nat}
    {a b : Marked UInt64} (hpair : pair i a j b ∈ ms) :
    Change.part (p ++ [i]) (q ++ [j]) (ms.flatMap (changes sub p q)) =
      sub (p ++ [i]) (q ++ [j]) a b := by
  induction hms with
  | nil => cases hpair
  | @cons m ms hm hms ih =>
      rw [List.flatMap_cons, Change.part_append]
      rcases List.mem_cons.mp hpair with rfl | hpair
      · have hrest : Change.part (p ++ [i]) (q ++ [j]) (ms.flatMap (changes sub p q)) = [] := by
          rw [Change.part_eq_nil_iff]
          intro c hc
          obtain ⟨n, hn, hc⟩ := List.mem_flatMap.mp hc
          exact Change.part_eq_nil_iff.mp (part_changes_eq_nil hsub (symm (hm n hn))) c hc
        rw [hrest, List.append_nil]
        exact Change.part_eq_self (hsub _ _ a b)
      · rw [part_changes_eq_nil hsub (hm _ hpair), List.nil_append, ih hpair]

end Match

namespace Marked

variable {align : Aligner} {limit : Int}

theorem same_eq_true_iff {f t : Marked UInt64} :
    f.same limit t = true ↔ f.value = t.value ∧ f.tree.compare limit t.tree = .ok 0 := by
  cases hcompare : f.tree.compare limit t.tree with
  | error e => simp [same, hcompare, Except.toOption]
  | ok x => simp [same, hcompare, Except.toOption]

theorem agrees_eq_true_iff {f t : Marked UInt64} :
    f.agrees t = true ↔ f.head.kind = t.head.kind ∧ f.head.payloadBytes = t.head.payloadBytes := by
  simp [agrees]

theorem changes_succ (fuel : Nat) (p q : Path) (f t : Marked UInt64) :
    changes align limit (fuel + 1) p q f t =
      if f.same limit t then []
      else if !f.agrees t then [.replace p f.tree t.tree]
      else (f.matchChildren align t).flatMap (Match.changes (changes align limit fuel) p q) := by
  rw [changes]
  rfl

theorem within_of_mem_changes (fuel : Nat) : Match.Local (changes align limit fuel) := by
  induction fuel with
  | zero =>
      intro p q f t c hc
      rw [List.mem_singleton.mp hc]
      exact ⟨[], (List.append_nil p).symm⟩
  | succ fuel ih =>
      intro p q f t c hc
      rw [changes_succ] at hc
      split at hc
      · cases hc
      · split at hc
        · rw [List.mem_singleton.mp hc]
          exact ⟨[], (List.append_nil p).symm⟩
        · obtain ⟨m, -, hc⟩ := List.mem_flatMap.mp hc
          exact Match.within_of_mem_changes ih hc

end Marked

end Arbor
