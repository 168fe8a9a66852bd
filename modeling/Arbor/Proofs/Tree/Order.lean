import Arbor.Proofs.Tree.Equality
import Arbor.Tree.Order

/-! The comparison is four differences of which the first that is not zero counts. -/
namespace Arbor

theorem compareBool_eq (a b : Bool) : compareBool a b = compare a b := by
  cases a <;> cases b <;> rfl

theorem compareByte_then (x y : UInt8) (o : Ordering) :
    (if x < y then .lt else if y < x then .gt else o) = (compare x y).then o := by
  cases h : compare x y with
  | lt => rw [if_pos (Std.compare_eq_lt.mp h)]; rfl
  | gt =>
      have hlt := Std.compare_eq_gt.mp h
      rw [if_neg (Std.not_lt.mpr (Std.le_of_lt hlt)), if_pos hlt]; rfl
  | eq =>
      rw [Std.LawfulEqOrd.eq_of_compare h]
      simp

theorem compareBytes_eq (a b : Bytes) : compareBytes a b = compare a b := by
  induction a generalizing b with
  | nil => cases b <;> rfl
  | cons x xs ih =>
      cases b with
      | nil => rfl
      | cons y ys => rw [compareBytes, List.compare_cons_cons, ih ys, compareByte_then]

theorem compareInt64_eq (x y : Int64) :
    (if x < y then Ordering.lt else if y < x then .gt else .eq) = compare x.toInt y.toInt := by
  cases h : compare x.toInt y.toInt with
  | lt => rw [if_pos (Int64.lt_iff_toInt_lt.mpr (Int.compare_eq_lt.mp h))]
  | gt =>
      have hlt := Int64.lt_iff_toInt_lt.mpr (Int.compare_eq_gt.mp h)
      rw [if_neg (Std.not_lt.mpr (Std.le_of_lt hlt)), if_pos hlt]
  | eq =>
      rw [Int64.toInt_inj.mp (Int.compare_eq_eq.mp h)]
      simp

namespace Head

abbrev Key := Int × Bytes × Bool

def compareKeys : Key → Key → Ordering :=
  compareLex (compareOn Prod.fst) (compareLex (compareOn fun k => k.2.1) (compareOn fun k => k.2.2))

instance : Std.TransCmp compareKeys := by
  unfold compareKeys
  infer_instance

theorem compareKeys_eq_iff {x y : Key} : compareKeys x y = .eq ↔ x = y := by
  simp only [compareKeys, compareLex_eq_eq, compareOn, Std.LawfulEqOrd.compare_eq_iff_eq,
    Prod.ext_iff]

/-- What the payloads of one kind are ordered by. -/
def key : Head → Key
  | integer v => (v.toInt, [], false)
  | float v => (v.rank, [], false)
  | boolean v => (0, [], v)
  | string v => (0, v, false)
  | identifier n => (0, n, false)
  | unary op trailing => (0, op, trailing)
  | binary op => (0, op, false)
  | member n => (0, n, false)
  | _ => (0, [], false)

theorem comparePayload_eq {h k : Head} (hk : h.kind = k.kind) :
    h.comparePayload k = compareKeys h.key k.key := by
  cases h <;> cases k <;> cases hk <;>
    simp [comparePayload, key, compareKeys, compareLex, compareOn, compareInt64_eq,
      compareBytes_eq, compareBool_eq, Binary64.compare]

theorem key_eq_iff {h k : Head} (hk : h.kind = k.kind) : h.key = k.key ↔ h.Same k := by
  constructor
  · intro hkey
    cases h <;> cases k <;> cases hk
    case float.float.refl x y =>
        exact .float (Binary64.rank_eq_iff.mp (congrArg Prod.fst hkey))
    all_goals simp_all [key, Int64.toInt_inj, Same.refl]
  · intro hsame
    cases hsame with
    | refl => rfl
    | float hxy => simp only [key, Binary64.rank_eq_iff.mpr hxy]

theorem comparePayload_eq_iff {h k : Head} (hkind : h.kind = k.kind) :
    h.comparePayload k = .eq ↔ h.Same k := by
  rw [comparePayload_eq hkind, compareKeys_eq_iff, key_eq_iff hkind]

end Head

/-- The first of two differences that is not zero. -/
def firstGap (x y : Int) : Int := if x = 0 then y else x

theorem firstGap_eq_zero_iff {x y : Int} : firstGap x y = 0 ↔ x = 0 ∧ y = 0 := by
  unfold firstGap
  split <;> omega

theorem firstGap_neg (x y : Int) : firstGap (-x) (-y) = -firstGap x y := by
  unfold firstGap
  split <;> split <;> omega

theorem firstGap_congr {x y y' : Int} (h : x = 0 → y = y') : firstGap x y = firstGap x y' := by
  unfold firstGap
  split
  next hx => exact h hx
  next hx => rfl

/-- What the differences of a first from a second, a second from a third and a first from a third
tree have to do with each other in an order. -/
structure Chain (x y z : Int) : Prop where
  zero : x = 0 → y = 0 → z = 0
  strict : x ≤ 0 → y ≤ 0 → x < 0 ∨ y < 0 → z < 0

theorem Chain.le {x y z : Int} (h : Chain x y z) (hx : x ≤ 0) (hy : y ≤ 0) : z ≤ 0 := by
  have hzero := h.zero
  have hstrict := h.strict hx hy
  omega

theorem Chain.sub (a b c : Int) : Chain (a - b) (b - c) (a - c) :=
  ⟨by omega, by omega⟩

/-- A later difference counts only where the earlier ones are zero. -/
theorem Chain.first {x y z x' y' z' : Int} (h : Chain x y z)
    (h' : x = 0 → y = 0 → Chain x' y' z') :
    Chain (firstGap x x') (firstGap y y') (firstGap z z') := by
  obtain ⟨hzero, hstrict⟩ := h
  by_cases hx : x = 0
  · by_cases hy : y = 0
    · simp only [firstGap, hx, hy, hzero hx hy, if_true]
      exact h' hx hy
    · simp only [firstGap, hx, hy, if_true, if_false]
      refine ⟨fun _ h0 => absurd h0 hy, fun _ hle _ => ?_⟩
      have hz : z < 0 := hstrict (by omega) hle (by omega)
      rw [if_neg (by omega)]
      exact hz
  · simp only [firstGap, hx, if_false]
    refine ⟨fun h0 => absurd h0 hx, fun hle hle' _ => ?_⟩
    have hy : y ≤ 0 := by
      split at hle' <;> omega
    have hz : z < 0 := hstrict hle hy (by omega)
    rw [if_neg (by omega)]
    exact hz

theorem sign_eq_zero_iff {o : Ordering} : Ordering.sign o = 0 ↔ o = .eq := by
  cases o <;> decide

theorem sign_neg_iff {o : Ordering} : Ordering.sign o < 0 ↔ o = .lt := by
  cases o <;> decide

theorem sign_le_iff {o : Ordering} : Ordering.sign o ≤ 0 ↔ o.isLE := by
  cases o <;> decide

theorem sign_swap (o : Ordering) : Ordering.sign o.swap = -Ordering.sign o := by
  cases o <;> rfl

theorem Chain.ofCompare {α : Type} (cmp : α → α → Ordering) [Std.TransCmp cmp] (a b c : α) :
    Chain (Ordering.sign (cmp a b)) (Ordering.sign (cmp b c)) (Ordering.sign (cmp a c)) := by
  constructor
  · simp only [sign_eq_zero_iff]
    exact Std.TransCmp.eq_trans
  · simp only [sign_le_iff, sign_neg_iff]
    rintro hab hbc (hlt | hlt)
    · exact Std.TransCmp.lt_of_lt_of_isLE hlt hbc
    · exact Std.TransCmp.lt_of_isLE_of_lt hab hlt

theorem Kind.ordinal_inj {k l : Kind} (h : k.ordinal = l.ordinal) : k = l := by
  revert h
  cases k <;> cases l <;> decide

theorem Kind.ordinal_pos (k : Kind) : 0 < k.ordinal := by
  cases k <;> decide

/-- The difference of the numbers of children, which a conditional leaves to its children. -/
def countGap (k : Kind) (m n : Nat) : Int := if k = .ifElseStatement then 0 else (m : Int) - n

theorem countGap_swap (k : Kind) (m n : Nat) : countGap k n m = -countGap k m n := by
  unfold countGap
  split <;> omega

theorem countGap_self (k : Kind) (n : Nat) : countGap k n n = 0 := by
  unfold countGap
  split <;> omega

theorem Chain.ofCounts (k : Kind) (l m n : Nat) :
    Chain (countGap k l m) (countGap k m n) (countGap k l n) := by
  unfold countGap
  split
  · exact Chain.sub 0 0 0
  · exact Chain.sub l m n

namespace Tree

mutual

/-- The difference of two trees, when nothing is wrong with them. -/
def gap : Tree → Tree → Int
  | node h cs, node k ds =>
    firstGap ((h.kind.ordinal : Int) - k.kind.ordinal) <|
    firstGap (Ordering.sign (Head.compareKeys h.key k.key)) <|
    firstGap (countGap h.kind cs.length ds.length) <|
    gapAll cs ds
  | _, _ => 0

def gapAll : List Tree → List Tree → Int
  | [], [] => 0
  | [], u :: _ => -u.ordinal
  | t :: _, [] => t.ordinal
  | t :: ts, u :: us => firstGap (gap t u) (gapAll ts us)

end

theorem gap_node (h k : Head) (cs ds : List Tree) :
    gap (.node h cs) (.node k ds) =
      firstGap ((h.kind.ordinal : Int) - k.kind.ordinal)
        (firstGap (Ordering.sign (Head.compareKeys h.key k.key))
          (firstGap (countGap h.kind cs.length ds.length) (gapAll cs ds))) := by
  rw [gap]

theorem ordinal_pos {t : Tree} (ht : t.Complete) : 0 < t.ordinal := by
  cases ht with
  | @node h cs hcs => exact Int.natCast_pos.mpr h.kind.ordinal_pos

theorem gapAll_swap {cs : List Tree} (hcs : ∀ c ∈ cs, ∀ d, gap d c = -gap c d) (ds : List Tree) :
    gapAll ds cs = -gapAll cs ds := by
  induction cs generalizing ds with
  | nil =>
      cases ds with
      | nil => rfl
      | cons d ds => simp only [gapAll, Int.neg_neg]
  | cons c cs ih =>
      cases ds with
      | nil => rfl
      | cons d ds =>
          have htail := ih (fun e he => hcs e (List.mem_cons_of_mem c he)) ds
          rw [gapAll, gapAll, hcs c List.mem_cons_self d, htail, firstGap_neg]

theorem gap_swap (t u : Tree) : gap u t = -gap t u := by
  induction t generalizing u with
  | absent => cases u <;> simp [gap]
  | node h cs ih =>
      cases u with
      | absent => simp [gap]
      | node k ds =>
          have hkeys : Head.compareKeys k.key h.key = (Head.compareKeys h.key k.key).swap :=
            Std.OrientedCmp.eq_swap
          have hkind : (k.kind.ordinal : Int) - h.kind.ordinal =
              -((h.kind.ordinal : Int) - k.kind.ordinal) := by omega
          rw [gap_node, gap_node, gapAll_swap ih ds, hkeys, sign_swap, hkind, ← firstGap_neg,
            ← firstGap_neg, ← firstGap_neg, ← countGap_swap]
          apply firstGap_congr
          intro hzero
          rw [Kind.ordinal_inj (k := h.kind) (l := k.kind) (by omega)]

theorem gapAll_eq_zero_iff {cs ds : List Tree}
    (hcs : ∀ c ∈ cs, ∀ d, d.Complete → (gap c d = 0 ↔ c.Same d))
    (hc : ∀ c ∈ cs, c.Complete) (hd : ∀ d ∈ ds, d.Complete) :
    gapAll cs ds = 0 ↔ List.Forall₂ Same cs ds := by
  induction cs generalizing ds with
  | nil =>
      cases ds with
      | nil => simp [gapAll]
      | cons d ds =>
          have hpos := ordinal_pos (hd d List.mem_cons_self)
          simp only [gapAll, List.forall₂_nil_left_iff, reduceCtorEq, iff_false]
          omega
  | cons c cs ih =>
      cases ds with
      | nil =>
          have hpos := ordinal_pos (hc c List.mem_cons_self)
          simp only [gapAll, List.forall₂_nil_right_iff, reduceCtorEq, iff_false]
          omega
      | cons d ds =>
          have htail := ih (fun e he => hcs e (List.mem_cons_of_mem c he))
            (fun e he => hc e (List.mem_cons_of_mem c he))
            (fun e he => hd e (List.mem_cons_of_mem d he))
          rw [gapAll, firstGap_eq_zero_iff, List.forall₂_cons, htail,
            hcs c List.mem_cons_self d (hd d List.mem_cons_self)]

/-- The difference is zero exactly between trees that are the same. -/
theorem gap_eq_zero_iff {t u : Tree} (ht : t.Complete) (hu : u.Complete) :
    gap t u = 0 ↔ t.Same u := by
  induction t generalizing u with
  | absent => cases ht
  | node h cs ih =>
      cases hu with
      | @node k ds hds =>
          have hall : gapAll cs ds = 0 ↔ List.Forall₂ Same cs ds :=
            gapAll_eq_zero_iff (fun c hc d hd => ih c hc (ht.children c hc) hd) ht.children hds
          rw [gap_node, firstGap_eq_zero_iff, firstGap_eq_zero_iff, firstGap_eq_zero_iff,
            sign_eq_zero_iff, Head.compareKeys_eq_iff, hall]
          constructor
          · rintro ⟨hkind, hkey, -, hchildren⟩
            have hkind := Kind.ordinal_inj (k := h.kind) (l := k.kind) (by omega)
            exact .node ((Head.key_eq_iff hkind).mp hkey) hchildren
          · rintro (_ | ⟨hhead, hchildren⟩)
            refine ⟨?_, (Head.key_eq_iff hhead.kind).mpr hhead, ?_, hchildren⟩
            · rw [hhead.kind]
              omega
            · rw [hchildren.length_eq, countGap_self]

theorem gapAll_chain {cs ds es : List Tree}
    (hcs : ∀ c ∈ cs, ∀ d e, d.Complete → e.Complete → Chain (gap c d) (gap d e) (gap c e))
    (hc : ∀ c ∈ cs, c.Complete) (hd : ∀ d ∈ ds, d.Complete) (he : ∀ e ∈ es, e.Complete) :
    Chain (gapAll cs ds) (gapAll ds es) (gapAll cs es) := by
  induction cs generalizing ds es with
  | nil =>
      cases ds with
      | nil =>
          cases es with
          | nil => exact Chain.sub 0 0 0
          | cons e es => simpa [gapAll] using Chain.sub 0 0 e.ordinal
      | cons d ds =>
          have hpos := ordinal_pos (hd d List.mem_cons_self)
          cases es with
          | nil => constructor <;> simp only [gapAll] <;> omega
          | cons e es =>
              have hpos' := ordinal_pos (he e List.mem_cons_self)
              constructor <;> simp only [gapAll] <;> omega
  | cons c cs ih =>
      have hpos := ordinal_pos (hc c List.mem_cons_self)
      cases ds with
      | nil => cases es <;> constructor <;> simp only [gapAll] <;> omega
      | cons d ds =>
          have hpos' := ordinal_pos (hd d List.mem_cons_self)
          cases es with
          | nil => constructor <;> simp only [gapAll] <;> omega
          | cons e es =>
              have hhead := hcs c List.mem_cons_self d e (hd d List.mem_cons_self)
                (he e List.mem_cons_self)
              have htail := ih (fun x hx => hcs x (List.mem_cons_of_mem c hx))
                (fun x hx => hc x (List.mem_cons_of_mem c hx))
                (fun x hx => hd x (List.mem_cons_of_mem d hx))
                (fun x hx => he x (List.mem_cons_of_mem e hx))
              simp only [gapAll]
              exact hhead.first fun _ _ => htail

/-- Differences add up along a chain of three trees as in a total order. -/
theorem gap_chain {t u v : Tree} (ht : t.Complete) (hu : u.Complete) (hv : v.Complete) :
    Chain (gap t u) (gap u v) (gap t v) := by
  induction t generalizing u v with
  | absent => cases ht
  | node h cs ih =>
      cases hu with
      | @node k ds hds =>
          cases hv with
          | @node l es hes =>
              rw [gap_node, gap_node, gap_node]
              refine (Chain.sub _ _ _).first fun hhk _ => ?_
              refine (Chain.ofCompare Head.compareKeys _ _ _).first fun _ _ => ?_
              rw [Kind.ordinal_inj (k := h.kind) (l := k.kind) (by omega)]
              refine (Chain.ofCounts _ _ _ _).first fun _ _ => ?_
              exact gapAll_chain (fun c hc d e hd he => ih c hc (ht.children c hc) hd he)
                ht.children hds hes

theorem gapAll_of_compareAll {limit : Int} {depth : Nat} {cs ds : List Tree} {x : Int}
    (hcs : ∀ c ∈ cs, ∀ d y, compareAt limit depth c d = .ok y → y = gap c d)
    (h : compareAll limit depth cs ds = .ok x) : x = gapAll cs ds := by
  induction cs generalizing ds x with
  | nil =>
      cases ds with
      | nil => exact (Except.ok.inj h).symm
      | cons d ds => exact (Except.ok.inj h).symm
  | cons c cs ih =>
      cases ds with
      | nil => exact (Except.ok.inj h).symm
      | cons d ds =>
          obtain ⟨y, hy, hrest⟩ := bind_eq_ok_iff.mp h
          rw [gapAll, ← hcs c List.mem_cons_self d y hy, firstGap]
          split
          next hzero =>
            simp only [hzero, ne_eq, not_true_eq_false, if_false] at hrest
            exact ih (fun e he => hcs e (List.mem_cons_of_mem c he)) hrest
          next hzero =>
            simp only [hzero, ne_eq, not_false_eq_true, if_true] at hrest
            exact (Except.ok.inj hrest).symm

theorem gap_of_compareAt {limit : Int} {depth : Nat} {t u : Tree} {x : Int}
    (h : compareAt limit depth t u = .ok x) : x = gap t u := by
  induction t generalizing u depth x with
  | absent => simp [compareAt] at h
  | node l cs ih =>
      cases u with
      | absent => simp [compareAt] at h
      | node k ds =>
          rw [compareAt, check_bind_eq_ok_iff] at h
          obtain ⟨-, h⟩ := h
          rw [gap_node]
          split at h
          next hkind =>
            have hne : (l.kind.ordinal : Int) - k.kind.ordinal ≠ 0 := by
              intro hzero
              exact hkind (Kind.ordinal_inj (by omega))
            rw [firstGap, if_neg hne]
            exact (Except.ok.inj h).symm
          next hkind =>
            have hkind : l.kind = k.kind := Decidable.not_not.mp hkind
            rw [Head.comparePayload_eq hkind] at h
            rw [hkind, Int.sub_self, firstGap, if_pos rfl]
            cases hkeys : Head.compareKeys l.key k.key with
            | lt =>
                rw [hkeys] at h
                exact (Except.ok.inj h).symm
            | gt =>
                rw [hkeys] at h
                exact (Except.ok.inj h).symm
            | eq =>
                rw [hkeys] at h
                simp only [check_bind_eq_ok_iff] at h
                obtain ⟨-, h⟩ := h
                simp only [Ordering.sign, firstGap, if_true, ← hkind]
                split at h
                next hcount =>
                  rw [countGap, if_neg hcount.1, if_neg (by omega)]
                  exact (Except.ok.inj h).symm
                next hcount =>
                  have hzero : countGap l.kind cs.length ds.length = 0 := by
                    by_cases hif : l.kind = .ifElseStatement
                    · rw [countGap, if_pos hif]
                    · have hlength := Decidable.not_not.mp (not_and.mp hcount hif)
                      rw [hlength, countGap_self]
                  rw [if_pos hzero]
                  exact gapAll_of_compareAll (fun c hc d y hy => ih c hc hy) h

theorem checkBoth_eq_ok {k : Kind} {cs ds : List Tree} (hcs : check k cs = .ok ())
    (hds : check k ds = .ok ()) : checkBoth k cs ds = .ok () := by
  unfold checkBoth
  split
  · rw [hcs, hds]
  · obtain ⟨hadmits, hchildren⟩ := check_eq_ok_iff.mp hcs
    obtain ⟨hadmits', hchildren'⟩ := check_eq_ok_iff.mp hds
    simp [hadmits, hadmits', hchildren, hchildren', bind, Except.bind]

theorem compareAll_succeeds {limit : Int} {depth : Nat} {cs ds : List Tree}
    (h : ∀ c ∈ cs, ∀ d ∈ ds, ∃ x, compareAt limit depth c d = .ok x) :
    ∃ x, compareAll limit depth cs ds = .ok x := by
  induction cs generalizing ds with
  | nil => cases ds <;> exact ⟨_, rfl⟩
  | cons c cs ih =>
      cases ds with
      | nil => exact ⟨_, rfl⟩
      | cons d ds =>
          obtain ⟨x, hx⟩ := h c List.mem_cons_self d List.mem_cons_self
          obtain ⟨y, hy⟩ := ih fun e he e' he' =>
            h e (List.mem_cons_of_mem c he) e' (List.mem_cons_of_mem d he')
          rw [compareAll, hx]
          by_cases hzero : x = 0
          · exact ⟨y, by simp [hzero, hy, bind, Except.bind]⟩
          · exact ⟨x, by simp [hzero, bind, Except.bind, pure, Except.pure]⟩

theorem compareAt_succeeds {limit : Int} {depth : Nat} {t u : Tree}
    (ht : validateAt limit depth t = .ok ()) (hu : validateAt limit depth u = .ok ()) :
    ∃ x, compareAt limit depth t u = .ok x := by
  induction t generalizing u depth with
  | absent => exact absurd ht not_validateAt_absent
  | node h cs ih =>
      cases u with
      | absent => exact absurd hu not_validateAt_absent
      | node k ds =>
          obtain ⟨hdepth, hcheck, hcs⟩ := validateAt_node_iff.mp ht
          obtain ⟨-, hcheck', hds⟩ := validateAt_node_iff.mp hu
          obtain ⟨x, hx⟩ := compareAll_succeeds fun c hc d hd => ih c hc (hcs c hc) (hds d hd)
          rw [compareAt, checkDepth_eq_ok_iff.mpr hdepth]
          by_cases hkind : h.kind = k.kind
          · have hboth := checkBoth_eq_ok hcheck (hkind ▸ hcheck')
            cases hpayload : h.comparePayload k with
            | lt => exact ⟨-1, by simp [hkind, bind, Except.bind, pure, Except.pure]⟩
            | gt => exact ⟨1, by simp [hkind, bind, Except.bind, pure, Except.pure]⟩
            | eq =>
                simp only [hkind, ne_eq, not_true_eq_false, if_false] at hboth ⊢
                rw [hboth]
                by_cases hcount : k.kind ≠ .ifElseStatement ∧ cs.length ≠ ds.length
                · exact ⟨_, if_pos hcount⟩
                · exact ⟨x, (if_neg hcount).trans hx⟩
          · exact ⟨_, if_pos hkind⟩

theorem compareAt_eq_gap {limit : Int} {depth : Nat} {t u : Tree}
    (ht : validateAt limit depth t = .ok ()) (hu : validateAt limit depth u = .ok ()) :
    compareAt limit depth t u = .ok (gap t u) := by
  obtain ⟨x, hx⟩ := compareAt_succeeds ht hu
  rw [hx, gap_of_compareAt hx]

theorem same_of_compare {limit : Int} {t u : Tree} (ht : t.Complete) (hu : u.Complete)
    (h : t.compare limit u = .ok 0) : t.Same u :=
  (gap_eq_zero_iff ht hu).mp (gap_of_compareAt h).symm

theorem compare_of_same {limit : Int} {t u : Tree} (hu : u.validate limit = .ok ())
    (h : t.Same u) : t.compare limit u = .ok 0 := by
  have ht := h.validateAt hu
  rw [compare, compareAt_eq_gap ht hu,
    (gap_eq_zero_iff (complete_of_validateAt ht) (complete_of_validateAt hu)).mpr h]

/-- The order of trees. Any two of three valid trees can be compared; the result is zero exactly
if they are the same; one of the two directions is at most zero; and of two steps up in the order the
whole is one, strictly if one of the steps is. -/
theorem compare_total_order {limit : Int} {a b c : Tree} (ha : a.validate limit = .ok ())
    (hb : b.validate limit = .ok ()) (hc : c.validate limit = .ok ()) :
    ∃ ab ba bc ac : Int,
      a.compare limit b = .ok ab ∧ b.compare limit a = .ok ba ∧
      b.compare limit c = .ok bc ∧ a.compare limit c = .ok ac ∧
      (ab = 0 ↔ a.Same b) ∧ (ab ≤ 0 ∨ ba ≤ 0) ∧
      (ab ≤ 0 → bc ≤ 0 → ac ≤ 0 ∧ (ab < 0 ∨ bc < 0 → ac < 0)) := by
  have hca := complete_of_validateAt ha
  have hcb := complete_of_validateAt hb
  have hchain := gap_chain hca hcb (complete_of_validateAt hc)
  have hswap := gap_swap a b
  refine ⟨gap a b, gap b a, gap b c, gap a c, compareAt_eq_gap ha hb, compareAt_eq_gap hb ha,
    compareAt_eq_gap hb hc, compareAt_eq_gap ha hc, gap_eq_zero_iff hca hcb, by omega, ?_⟩
  intro hab hbc
  exact ⟨hchain.le hab hbc, hchain.strict hab hbc⟩

/-- Three conditionals: one without a false branch, and two that differ in it. -/
theorem compare_total_order_branches :
    let bare := node .ifElse [node .null [], node .block []]
    let short := node .ifElse [node .null [], node .block [], node .expression [node .null []]]
    let long := node .ifElse [node .null [], node .block [], node .block []]
    (bare.validate 2 = .ok () ∧ short.validate 2 = .ok () ∧ long.validate 2 = .ok ()) ∧
      ∃ ab bc ac : Int, bare.compare 2 short = .ok ab ∧ short.compare 2 long = .ok bc ∧
        bare.compare 2 long = .ok ac ∧ (ab ≤ 0 → bc ≤ 0 → ac ≤ 0 ∧ (ab < 0 ∨ bc < 0 → ac < 0)) := by
  intro bare short long
  have hbare : bare.validate 2 = .ok () := rfl
  have hshort : short.validate 2 = .ok () := rfl
  have hlong : long.validate 2 = .ok () := rfl
  obtain ⟨ab, ba, bc, ac, hab, -, hbc, hac, -, -, htrans⟩ := compare_total_order hbare hshort hlong
  exact ⟨⟨hbare, hshort, hlong⟩, ab, bc, ac, hab, hbc, hac, htrans⟩

end Tree

end Arbor
