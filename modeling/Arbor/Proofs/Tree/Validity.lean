import Arbor.Tree.Basic

/-! What the checks of a tree say. -/
namespace Arbor

theorem bind_eq_ok_iff {ε α β : Type} {x : Except ε α} {f : α → Except ε β} {b : β} :
    (x >>= f) = .ok b ↔ ∃ a, x = .ok a ∧ f a = .ok b := by
  cases x with
  | error e => simp [bind, Except.bind]
  | ok a => simp [bind, Except.bind]

theorem check_bind_eq_ok_iff {ε β : Type} {x : Except ε Unit} {y : Except ε β} {b : β} :
    (x >>= fun _ => y) = .ok b ↔ x = .ok () ∧ y = .ok b := by
  rw [bind_eq_ok_iff]
  constructor
  · rintro ⟨⟨⟩, hx, hy⟩
    exact ⟨hx, hy⟩
  · rintro ⟨hx, hy⟩
    exact ⟨(), hx, hy⟩

theorem check_bind_eq_error_iff {ε β : Type} {x : Except ε Unit} {y : Except ε β} {e : ε} :
    (x >>= fun _ => y) = .error e ↔ x = .error e ∨ x = .ok () ∧ y = .error e := by
  cases x with
  | error d => simp [bind, Except.bind]
  | ok u => simp [bind, Except.bind]

theorem mapError_eq_ok_iff {ε δ α : Type} {x : Except ε α} {f : ε → δ} {a : α} :
    x.mapError f = .ok a ↔ x = .ok a := by
  cases x with
  | error e => constructor <;> rintro ⟨⟩
  | ok b => constructor <;> (rintro ⟨⟩; rfl)

namespace Tree

/-- Induction over a tree through its child lists. -/
@[elab_as_elim, induction_eliminator]
theorem induction {motive : Tree → Prop} (absent : motive .absent)
    (node : ∀ h cs, (∀ c ∈ cs, motive c) → motive (.node h cs)) (t : Tree) : motive t := by
  refine @Tree.rec motive (fun cs => ∀ c ∈ cs, motive c) absent node ?_ ?_ t
  · intro c hc
    cases hc
  · intro t ts ht hts c hc
    rcases List.mem_cons.mp hc with rfl | hc
    · exact ht
    · exact hts c hc

/-- No absent tree stands anywhere in the tree. -/
inductive Complete : Tree → Prop
  | node {h : Head} {cs : List Tree} : (∀ c ∈ cs, Complete c) → Complete (.node h cs)

theorem Complete.children {h : Head} {cs : List Tree} (ht : Complete (.node h cs)) :
    ∀ c ∈ cs, Complete c := by
  cases ht with
  | node hcs => exact hcs

theorem checkDepth_eq_ok_iff {limit : Int} {depth : Nat} :
    checkDepth limit depth = .ok () ↔ (depth : Int) ≤ limit := by
  unfold checkDepth
  split
  · simp only [reduceCtorEq, false_iff]
    omega
  · simp only [true_iff]
    omega

theorem checkChildren_congr (k : Kind) (i : Nat) {cs ds : List Tree}
    (h : cs.map Tree.kind? = ds.map Tree.kind?) : checkChildren k i cs = checkChildren k i ds := by
  induction cs generalizing i ds with
  | nil =>
      rw [List.map_nil, eq_comm, List.map_eq_nil_iff] at h
      rw [h]
  | cons c cs ih =>
      cases ds with
      | nil => cases h
      | cons d ds =>
          simp only [List.map_cons, List.cons.injEq] at h
          obtain ⟨hhead, htail⟩ := h
          cases c with
          | absent =>
              cases d with
              | absent => rfl
              | node l es => cases hhead
          | node h cs =>
              cases d with
              | absent => cases hhead
              | node l es =>
                  have hkind : h.kind = l.kind := Option.some.inj hhead
                  simp only [checkChildren, hkind, ih (i + 1) htail]

/-- Whether children fit a kind is decided by their kinds. -/
theorem check_congr (k : Kind) {cs ds : List Tree}
    (h : cs.map Tree.kind? = ds.map Tree.kind?) : check k cs = check k ds := by
  have hlength : cs.length = ds.length := by
    simpa only [List.length_map] using congrArg List.length h
  simp only [check, hlength, checkChildren_congr k 0 h]

theorem check_eq_ok_iff {k : Kind} {cs : List Tree} :
    check k cs = .ok () ↔ k.admits cs.length = true ∧ checkChildren k 0 cs = .ok () := by
  unfold check
  split <;> simp_all

theorem validateAll_eq_ok_iff {limit : Int} {depth : Nat} {cs : List Tree} :
    validateAll limit depth cs = .ok () ↔ ∀ c ∈ cs, validateAt limit depth c = .ok () := by
  induction cs with
  | nil => simp [validateAll]
  | cons c cs ih => simp [validateAll, check_bind_eq_ok_iff, ih]

theorem validateAt_node_iff {limit : Int} {depth : Nat} {h : Head} {cs : List Tree} :
    validateAt limit depth (.node h cs) = .ok () ↔
      (depth : Int) ≤ limit ∧ check h.kind cs = .ok () ∧
        ∀ c ∈ cs, validateAt limit (depth + 1) c = .ok () := by
  simp only [validateAt, check_bind_eq_ok_iff, checkDepth_eq_ok_iff, validateAll_eq_ok_iff]

theorem not_validateAt_absent {limit : Int} {depth : Nat} :
    validateAt limit depth .absent ≠ .ok () := by
  simp [validateAt]

theorem complete_of_validateAt {limit : Int} {depth : Nat} {t : Tree}
    (ht : validateAt limit depth t = .ok ()) : t.Complete := by
  induction t generalizing depth with
  | absent => exact absurd ht not_validateAt_absent
  | node h cs ih =>
      obtain ⟨-, -, hcs⟩ := validateAt_node_iff.mp ht
      exact .node fun c hc => ih c hc (hcs c hc)

end Tree

end Arbor
