import Arbor.Proofs.Tree.Validity
import Arbor.Tree.Marked
import Mathlib.Data.List.Forall2

/-! Both zeros are one number here, and all NaNs are one number. -/
namespace Arbor

namespace Binary64

/-- One number: the same pattern, two zeros or two NaNs. -/
def Same (x y : Binary64) : Prop :=
  x = y ∨ (x.isZero ∧ y.isZero) ∨ (x.isNaN ∧ y.isNaN)

theorem magnitude_lt (x : Binary64) : x.magnitude < 2 ^ 63 := Nat.mod_lt _ (by decide)

theorem bits_toNat (x : Binary64) :
    x.bits.toNat = (if x.negative then 2 ^ 63 else 0) + x.magnitude := by
  have hlt := x.bits.toNat_lt
  unfold negative magnitude
  simp only [decide_eq_true_eq, UInt64.le_iff_toNat_le]
  have hsign : (0x8000000000000000 : UInt64).toNat = 2 ^ 63 := by decide
  rw [hsign]
  split <;> omega

theorem eq_of_parts {x y : Binary64} (hsign : x.negative = y.negative)
    (hmagnitude : x.magnitude = y.magnitude) : x = y := by
  have hbits : x.bits.toNat = y.bits.toNat := by rw [bits_toNat, bits_toNat, hsign, hmagnitude]
  cases x
  cases y
  congr 1
  exact UInt64.toNat_inj.mp hbits

theorem isZero_iff {x : Binary64} : x.isZero ↔ x.magnitude = 0 := by simp [isZero]

theorem rank_nan_lt {x : Binary64} (hx : ¬ x.isNaN) : -(2 ^ 63 : Int) < x.rank := by
  have hlt := x.magnitude_lt
  simp only [rank, hx, Bool.false_eq_true, if_false]
  split <;> omega

theorem rank_of_isNaN {x : Binary64} (hx : x.isNaN) : x.rank = -(2 ^ 63 : Int) := by
  simp [rank, hx]

theorem rank_of_isZero {x : Binary64} (hx : x.isZero) : x.rank = 0 := by
  rw [isZero_iff] at hx
  simp [rank, isNaN, hx]

theorem rank_eq_iff {x y : Binary64} : x.rank = y.rank ↔ x.Same y := by
  constructor
  · intro h
    by_cases hx : x.isNaN
    · by_cases hy : y.isNaN
      · exact .inr (.inr ⟨hx, hy⟩)
      · have hlt := rank_nan_lt hy
        rw [← h, rank_of_isNaN hx] at hlt
        exact absurd hlt (Int.lt_irrefl _)
    · by_cases hy : y.isNaN
      · have hlt := rank_nan_lt hx
        rw [h, rank_of_isNaN hy] at hlt
        exact absurd hlt (Int.lt_irrefl _)
      · simp only [rank, hx, hy, Bool.false_eq_true, if_false] at h
        -- opposite signs leave only the two zeros
        cases hsx : x.negative <;> cases hsy : y.negative <;>
          simp only [hsx, hsy, Bool.false_eq_true, if_true, if_false] at h
        · exact .inl (eq_of_parts (hsx.trans hsy.symm) (by omega))
        · exact .inr (.inl ⟨isZero_iff.mpr (by omega), isZero_iff.mpr (by omega)⟩)
        · exact .inr (.inl ⟨isZero_iff.mpr (by omega), isZero_iff.mpr (by omega)⟩)
        · exact .inl (eq_of_parts (hsx.trans hsy.symm) (by omega))
  · rintro (rfl | ⟨hx, hy⟩ | ⟨hx, hy⟩)
    · rfl
    · rw [rank_of_isZero hx, rank_of_isZero hy]
    · rw [rank_of_isNaN hx, rank_of_isNaN hy]

theorem rank_canonicalBits (x : Binary64) : rank ⟨x.canonicalBits⟩ = x.rank := by
  unfold canonicalBits
  split
  next hx => rw [rank_of_isNaN hx, rank_of_isNaN (by decide)]
  next hx =>
    split
    next hz => rw [rank_of_isZero hz, rank_of_isZero (by decide)]
    next hz => rfl

theorem canonicalBits_eq_iff {x y : Binary64} : x.canonicalBits = y.canonicalBits ↔ x.Same y := by
  constructor
  · intro h
    rw [← rank_eq_iff, ← rank_canonicalBits x, h, rank_canonicalBits]
  · rintro (rfl | ⟨hx, hy⟩ | ⟨hx, hy⟩)
    · rfl
    · simp [canonicalBits, isNaN, hx, hy, isZero_iff.mp hx, isZero_iff.mp hy]
    · simp [canonicalBits, hx, hy]

/-- The number, with a plus on zero and one NaN for all. -/
def canonical (x : Binary64) : Binary64 := ⟨x.canonicalBits⟩

theorem canonical_same (x : Binary64) : x.canonical.Same x := rank_eq_iff.mp x.rank_canonicalBits

theorem canonical_of_isZero {x : Binary64} (hx : x.isZero = true) : x.canonical = zero :=
  congrArg mk (canonicalBits_eq_iff (y := zero).mpr (.inr (.inl ⟨hx, rfl⟩)))

theorem canonical_of_isNaN {x : Binary64} (hx : x.isNaN = true) : x.canonical = nan := by
  rw [canonical, canonicalBits, if_pos hx]

theorem canonical_eq_self {x : Binary64} (hzero : x.isZero = false) (hnan : x.isNaN = false) :
    x.canonical = x := by
  rw [canonical, canonicalBits, hnan, hzero]
  rfl

theorem isZero_canonical (x : Binary64) : x.canonical.isZero = x.isZero := by
  cases hzero : x.isZero with
  | true => rw [canonical_of_isZero hzero]; rfl
  | false =>
      cases hnan : x.isNaN with
      | true => rw [canonical_of_isNaN hnan]; rfl
      | false => rw [canonical_eq_self hzero hnan, hzero]

end Binary64

namespace Head

/-- One kind with equal payloads; floats are compared as numbers. -/
inductive Same : Head → Head → Prop
  | refl (h : Head) : Same h h
  | float {x y : Binary64} : x.Same y → Same (.float x) (.float y)

theorem Same.kind {h k : Head} (hk : h.Same k) : h.kind = k.kind := by
  cases hk with
  | refl => rfl
  | float hxy => rfl

theorem Same.symm {h k : Head} (hk : h.Same k) : k.Same h := by
  cases hk with
  | refl => exact .refl _
  | float hxy => exact .float (Binary64.rank_eq_iff.mp (Binary64.rank_eq_iff.mpr hxy).symm)

theorem Same.trans {h k l : Head} (hk : h.Same k) (kl : k.Same l) : h.Same l := by
  cases hk with
  | refl => exact kl
  | float hxy =>
      cases kl with
      | refl => exact .float hxy
      | float hyz =>
          rw [← Binary64.rank_eq_iff] at hxy hyz
          exact .float (Binary64.rank_eq_iff.mp (hxy.trans hyz))

theorem Same.payloadBytes {h k : Head} (hk : h.Same k) : h.payloadBytes = k.payloadBytes := by
  cases hk with
  | refl => rfl
  | float hxy => simp only [Head.payloadBytes, Binary64.canonicalBits_eq_iff.mpr hxy]

end Head

namespace Tree

/-- Structural equality: nodes that are the same over as many children, the same one by one. A
conditional without a false branch has one child less than one with it. -/
inductive Same : Tree → Tree → Prop
  | absent : Same .absent .absent
  | node {h k : Head} {cs ds : List Tree} :
      h.Same k → List.Forall₂ Same cs ds → Same (.node h cs) (.node k ds)

theorem Same.refl (t : Tree) : t.Same t := by
  induction t with
  | absent => exact .absent
  | node h cs ih => exact .node (.refl h) (List.forall₂_same.mpr ih)

theorem Same.symm {t u : Tree} (h : t.Same u) : u.Same t := by
  induction t generalizing u with
  | absent =>
      cases h with
      | absent => exact .absent
  | node l cs ih =>
      cases h with
      | node hhead hcs =>
          have hboth := (List.forall₂_and_left cs _).mpr
            ⟨fun c hc d (hcd : c.Same d) => ih c hc hcd, hcs⟩
          exact .node hhead.symm (hboth.imp fun c d hcd => hcd.1 d hcd.2).flip

theorem Same.trans {t u v : Tree} (h : t.Same u) (huv : u.Same v) : t.Same v := by
  induction t generalizing u v with
  | absent =>
      cases h with
      | absent => exact huv
  | node l cs ih =>
      cases h with
      | node hhead hcs =>
          cases huv with
          | node hhead' hds =>
              refine .node (hhead.trans hhead') ?_
              rw [List.forall₂_iff_get] at hcs hds ⊢
              refine ⟨hcs.1.trans hds.1, ?_⟩
              intro i hi hi'
              have hmiddle := hcs.1 ▸ hi
              exact ih _ (List.get_mem cs ⟨i, hi⟩) (hcs.2 i hi hmiddle) (hds.2 i hmiddle hi')

theorem Same.kind? {t u : Tree} (h : t.Same u) : t.kind? = u.kind? := by
  cases h with
  | absent => rfl
  | node hhead hcs => exact congrArg some hhead.kind

theorem exists_partner {R : Tree → Tree → Prop} {cs ds : List Tree} (h : List.Forall₂ R cs ds) :
    ∀ c ∈ cs, ∃ d ∈ ds, R c d := by
  induction h with
  | nil => simp
  | cons hcd htail ih =>
      intro c hc
      rcases List.mem_cons.mp hc with rfl | hc
      · exact ⟨_, List.mem_cons_self, hcd⟩
      · obtain ⟨d, hd, hrel⟩ := ih c hc
        exact ⟨d, List.mem_cons_of_mem _ hd, hrel⟩

theorem map_eq_of_forall₂ {α β γ : Type} {R : α → β → Prop} {f : α → γ} {g : β → γ}
    {cs : List α} {ds : List β} (h : List.Forall₂ R cs ds)
    (hfg : ∀ c ∈ cs, ∀ d, R c d → f c = g d) : cs.map f = ds.map g := by
  induction h with
  | nil => rfl
  | @cons c d cs ds hcd htail ih =>
      rw [List.map_cons, List.map_cons, hfg c List.mem_cons_self d hcd,
        ih fun e he => hfg e (List.mem_cons_of_mem c he)]

theorem Same.validateAt {limit : Int} {depth : Nat} {t u : Tree} (h : t.Same u)
    (hu : u.validateAt limit depth = .ok ()) : t.validateAt limit depth = .ok () := by
  induction t generalizing u depth with
  | absent =>
      cases h with
      | absent => exact hu
  | node l cs ih =>
      cases h with
      | node hhead hcs =>
          obtain ⟨hdepth, hcheck, hds⟩ := validateAt_node_iff.mp hu
          refine validateAt_node_iff.mpr ⟨hdepth, ?_, ?_⟩
          · rw [hhead.kind, check_congr _ (map_eq_of_forall₂ hcs fun _ _ _ => Same.kind?)]
            exact hcheck
          · intro c hc
            obtain ⟨d, hd, hcd⟩ := exists_partner hcs c hc
            exact ih c hc hcd (hds d hd)

end Tree

end Arbor
