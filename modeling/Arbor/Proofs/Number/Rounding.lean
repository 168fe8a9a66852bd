import Arbor.Number.Binary64
import Arbor.Proofs.Tree.Equality
import Mathlib.Algebra.Order.Field.Power
import Mathlib.Data.Rat.Cast.Order
import Mathlib.Tactic.FieldSimp
import Mathlib.Tactic.Linarith
import Mathlib.Tactic.NormNum
import Mathlib.Tactic.Positivity
import Mathlib.Tactic.Ring

/-! A finite number stands for the quotients nearer to it than to its neighbours. -/
namespace Arbor

theorem cast_pow_eq_zpow (b k : ℕ) : ((b ^ k : ℕ) : ℚ) = (b : ℚ) ^ (k : ℤ) := by
  rw [zpow_natCast]
  exact Nat.cast_pow b k

def overPower (base num den : ℕ) : ℤ → ℕ × ℕ
  | .ofNat k => (num, den * base ^ k)
  | .negSucc k => (num * base ^ (k + 1), den)

section OverPower

variable {base num den : ℕ}

theorem overPower_pos (hbase : 0 < base) (hden : 0 < den) (e : ℤ) :
    0 < (overPower base num den e).2 := by
  cases e with
  | ofNat k => exact Nat.mul_pos hden (Nat.pow_pos hbase)
  | negSucc k => exact hden

theorem overPower_div (hbase : 0 < base) (num den : ℕ) (e : ℤ) :
    ((overPower base num den e).1 : ℚ) / (overPower base num den e).2 =
      num / den / (base : ℚ) ^ e := by
  have hne : (base : ℚ) ≠ 0 := Nat.cast_ne_zero.mpr hbase.ne'
  cases e with
  | ofNat k =>
      rw [overPower, Nat.cast_mul, cast_pow_eq_zpow, div_mul_eq_div_div]
      rfl
  | negSucc k =>
      rw [overPower, Nat.cast_mul, cast_pow_eq_zpow, Int.negSucc_eq, zpow_neg, div_inv_eq_mul,
        Nat.cast_add_one, mul_div_right_comm]

end OverPower

namespace Binary64

/-- The whole part of a number within a half of `m` is `m` or one less. -/
theorem div_eq_or_succ_eq {a b m : ℕ} (hb : 0 < b) (hlow : 2 * m * b ≤ 2 * a + b)
    (hhigh : 2 * a ≤ 2 * m * b + b) : a / b = m ∨ a / b + 1 = m := by
  have hdiv := Nat.div_add_mod a b
  have hmod := Nat.mod_lt a hb
  have hcomm : 2 * m * b = 2 * (b * m) := by ring
  rcases Nat.lt_trichotomy (a / b) m with hlt | heq | hgt
  · refine .inr (Nat.le_antisymm hlt ?_)
    by_contra hle
    have hstep : b * (a / b + 2) ≤ b * m := Nat.mul_le_mul_left b (by omega)
    rw [Nat.mul_add] at hstep
    omega
  · exact .inl heq
  · have hstep : b * (m + 1) ≤ b * (a / b) := Nat.mul_le_mul_left b hgt
    rw [Nat.mul_add] at hstep
    omega

theorem roundHalfEven_eq_of_mul {a b m : ℕ} (hb : 0 < b) (hlow : 2 * m * b ≤ 2 * a + b)
    (hhigh : 2 * a ≤ 2 * m * b + b)
    (hodd : m % 2 = 1 → 2 * m * b < 2 * a + b ∧ 2 * a < 2 * m * b + b) :
    roundHalfEven a b = m := by
  have hdiv := Nat.div_add_mod a b
  have hmod := Nat.mod_lt a hb
  have hcomm : 2 * m * b = 2 * (b * m) := by ring
  unfold roundHalfEven
  rcases div_eq_or_succ_eq hb hlow hhigh with heq | heq
  · rw [heq] at hdiv
    rw [if_neg]
    · exact heq
    · rw [heq]
      omega
  · have hexpand : b * m = b * (a / b) + b := by rw [← heq, Nat.mul_add, Nat.mul_one]
    rw [if_pos]
    · exact heq
    · omega

/-- A half goes to the even neighbour, all else to the nearest one. -/
theorem roundHalfEven_eq {a b m : ℕ} (hb : 0 < b) (hlow : (m : ℚ) - 1 / 2 ≤ a / b)
    (hhigh : (a : ℚ) / b ≤ m + 1 / 2)
    (hodd : m % 2 = 1 → (m : ℚ) - 1 / 2 < a / b ∧ (a : ℚ) / b < m + 1 / 2) :
    roundHalfEven a b = m := by
  have hbq : (0 : ℚ) < b := Nat.cast_pos.mpr hb
  refine roundHalfEven_eq_of_mul hb ?_ ?_ fun hm => ⟨?_, ?_⟩
  · rw [le_div_iff₀ hbq] at hlow
    have hmul : (2 * m * b : ℚ) ≤ 2 * a + b := by linarith
    exact_mod_cast hmul
  · rw [div_le_iff₀ hbq] at hhigh
    have hmul : (2 * a : ℚ) ≤ 2 * m * b + b := by linarith
    exact_mod_cast hmul
  · have hlow' := (hodd hm).1
    rw [lt_div_iff₀ hbq] at hlow'
    have hmul : (2 * m * b : ℚ) < 2 * a + b := by linarith
    exact_mod_cast hmul
  · have hhigh' := (hodd hm).2
    rw [div_lt_iff₀ hbq] at hhigh'
    have hmul : (2 * a : ℚ) < 2 * m * b + b := by linarith
    exact_mod_cast hmul

theorem reached_iff {num den : ℕ} (hden : 0 < den) (guess : ℤ) :
    (match guess with
      | .ofNat k => decide (den * 2 ^ k ≤ num)
      | .negSucc k => decide (den ≤ num * 2 ^ (k + 1))) = true ↔ (2 : ℚ) ^ guess ≤ num / den := by
  have hpos : (0 : ℚ) < (overPower 2 num den guess).2 :=
    Nat.cast_pos.mpr (overPower_pos (by decide) hden _)
  have hreached : (overPower 2 num den guess).2 ≤ (overPower 2 num den guess).1 ↔
      (2 : ℚ) ^ guess ≤ num / den := by
    have hpow : (0 : ℚ) < 2 ^ guess := by positivity
    have hdiv := overPower_div Nat.two_pos num den guess
    rw [Nat.cast_ofNat] at hdiv
    rw [← one_le_div hpow, ← hdiv, one_le_div hpos, Nat.cast_le]
  rw [← hreached]
  cases guess with
  | ofNat k => exact decide_eq_true_iff
  | negSucc k => exact decide_eq_true_iff

theorem log2_bounds {n : ℕ} (hn : 0 < n) :
    (2 : ℚ) ^ (n.log2 : ℤ) ≤ n ∧ (n : ℚ) < 2 ^ ((n.log2 : ℤ) + 1) := by
  constructor
  · rw [← Nat.cast_two, ← cast_pow_eq_zpow, Nat.cast_le]
    exact Nat.log2_self_le hn.ne'
  · rw [← Nat.cast_two, ← Nat.cast_add_one, ← cast_pow_eq_zpow, Nat.cast_lt]
    exact Nat.lt_log2_self

/-- The difference of the logarithms is off by less than one. -/
theorem log2_sub_bounds {num den : ℕ} (hnum : 0 < num) (hden : 0 < den) :
    (2 : ℚ) ^ ((num.log2 : ℤ) - den.log2 - 1) < num / den ∧
      (num : ℚ) / den < 2 ^ ((num.log2 : ℤ) - den.log2 + 1) := by
  have hdenq : (0 : ℚ) < den := Nat.cast_pos.mpr hden
  obtain ⟨hnlow, hnhigh⟩ := log2_bounds hnum
  obtain ⟨hdlow, hdhigh⟩ := log2_bounds hden
  constructor
  · rw [lt_div_iff₀ hdenq]
    calc (2 : ℚ) ^ ((num.log2 : ℤ) - den.log2 - 1) * den
        < 2 ^ ((num.log2 : ℤ) - den.log2 - 1) * 2 ^ ((den.log2 : ℤ) + 1) := by gcongr
      _ = 2 ^ (num.log2 : ℤ) := by
          rw [← zpow_add₀ (by norm_num)]
          congr 1
          ring
      _ ≤ num := hnlow
  · rw [div_lt_iff₀ hdenq]
    calc (num : ℚ) < 2 ^ ((num.log2 : ℤ) + 1) := hnhigh
      _ = 2 ^ ((num.log2 : ℤ) - den.log2 + 1) * 2 ^ (den.log2 : ℤ) := by
          rw [← zpow_add₀ (by norm_num)]
          congr 1
          ring
      _ ≤ 2 ^ ((num.log2 : ℤ) - den.log2 + 1) * den := by gcongr

theorem floorLog2_spec {num den : ℕ} (hnum : 0 < num) (hden : 0 < den) :
    (2 : ℚ) ^ floorLog2 num den ≤ num / den ∧ (num : ℚ) / den < 2 ^ (floorLog2 num den + 1) := by
  obtain ⟨hlow, hhigh⟩ := log2_sub_bounds hnum hden
  have hcases : floorLog2 num den = if (2 : ℚ) ^ ((num.log2 : ℤ) - den.log2) ≤ num / den
      then (num.log2 : ℤ) - den.log2 else (num.log2 : ℤ) - den.log2 - 1 :=
    if_congr (reached_iff hden _) rfl rfl
  rw [hcases]
  split
  next hreached => exact ⟨hreached, hhigh⟩
  next hreached =>
    rw [sub_add_cancel]
    exact ⟨hlow.le, not_le.mp hreached⟩

def size (x : Binary64) : ℚ := x.significand * 2 ^ x.power

/-- The distance to the next greater number. -/
def step (x : Binary64) : ℚ := 2 ^ x.power

/-- A size that a number stands for: nearer to it than to its neighbours, or in the middle between
them if its significand is even. -/
structure StandsFor (x : Binary64) (v : ℚ) : Prop where
  below : x.size - (if x.narrowBelow then x.step / 4 else x.step / 2) ≤ v
  above : v ≤ x.size + x.step / 2
  odd : x.significand % 2 = 1 →
    x.size - (if x.narrowBelow then x.step / 4 else x.step / 2) < v ∧ v < x.size + x.step / 2

theorem step_pos (x : Binary64) : 0 < x.step := by
  unfold step
  positivity

theorem size_eq (x : Binary64) : x.size = x.significand * x.step := rfl

theorem fraction_lt (x : Binary64) : x.fraction < 2 ^ 52 := Nat.mod_lt _ (by decide)

theorem magnitude_eq (x : Binary64) : x.magnitude = x.exponentField * 2 ^ 52 + x.fraction := by
  unfold exponentField fraction
  omega

theorem significand_lt (x : Binary64) : x.significand < 2 ^ 53 := by
  have hfraction := x.fraction_lt
  unfold significand
  split <;> omega

theorem significand_pos {x : Binary64} (hx : x.isZero = false) : 0 < x.significand := by
  have hmagnitude := x.magnitude_eq
  have hne : x.magnitude ≠ 0 := by simpa [isZero] using hx
  unfold significand
  split <;> omega

theorem le_power (x : Binary64) : -1074 ≤ x.power := by
  unfold power
  split <;> omega

/-- Above the least exponent the significand has its leading bit. -/
theorem le_significand {x : Binary64} (hx : -1074 < x.power) : 2 ^ 52 ≤ x.significand := by
  unfold power at hx
  unfold significand
  split <;> simp_all

/-- The pattern from power and significand, as rounding puts it together. -/
theorem pattern_eq (x : Binary64) :
    (if x.significand < 2 ^ 52 then x.significand
      else (x.power + 1075).toNat * 2 ^ 52 + (x.significand - 2 ^ 52)) = x.magnitude := by
  have hmagnitude := x.magnitude_eq
  have hfraction := x.fraction_lt
  by_cases hfield : x.exponentField = 0
  · simp only [significand, power, hfield, if_true]
    rw [if_pos hfraction]
    omega
  · simp only [significand, power, hfield, if_false]
    rw [if_neg (by omega)]
    omega

theorem StandsFor.pos {x : Binary64} {v : ℚ} (hx : x.isZero = false) (h : x.StandsFor v) :
    0 < v := by
  have hstep := x.step_pos
  have hone : (1 : ℚ) ≤ x.significand := Nat.one_le_cast.mpr (significand_pos hx)
  have hbelow := h.below
  have hhalf : (if x.narrowBelow then x.step / 4 else x.step / 2) ≤ x.step / 2 := by
    split <;> linarith
  rw [size_eq] at hbelow
  nlinarith

/-- The significand that rounding finds for a quotient in units of a power. -/
def scaledRound (num den : ℕ) : ℤ → ℕ
  | .ofNat k => roundHalfEven num (den * 2 ^ k)
  | .negSucc k => roundHalfEven (num * 2 ^ (k + 1)) den

theorem scaledRound_eq {num den m : ℕ} (hden : 0 < den) {p : ℤ}
    (hlow : (m - 1 / 2) * 2 ^ p ≤ (num : ℚ) / den) (hhigh : (num : ℚ) / den ≤ (m + 1 / 2) * 2 ^ p)
    (hodd : m % 2 = 1 → (m - 1 / 2) * 2 ^ p < (num : ℚ) / den ∧
      (num : ℚ) / den < (m + 1 / 2) * 2 ^ p) : scaledRound num den p = m := by
  have hpow : (0 : ℚ) < 2 ^ p := by positivity
  have hdiv := overPower_div Nat.two_pos num den p
  rw [Nat.cast_ofNat] at hdiv
  have hround : roundHalfEven (overPower 2 num den p).1 (overPower 2 num den p).2 = m := by
    refine roundHalfEven_eq (overPower_pos (by decide) hden p) ?_ ?_ ?_
    · rwa [hdiv, le_div_iff₀ hpow]
    · rwa [hdiv, div_le_iff₀ hpow]
    · intro hm
      rw [hdiv, lt_div_iff₀ hpow, div_lt_iff₀ hpow]
      exact hodd hm
  rw [← hround]
  cases p with
  | ofNat k => rfl
  | negSucc k => rfl

/-- What rounding makes of a quotient once its power and its significand are known. -/
theorem ofRatio?_eq {num den m pattern : ℕ} {p : ℤ} (hnum : num ≠ 0)
    (hpower : max (floorLog2 num den - 52) (-1074) = p) (hm : scaledRound num den p = m)
    (hpattern : (if m < 2 ^ 52 then m else (p + 1075).toNat * 2 ^ 52 + (m - 2 ^ 52)) = pattern)
    (hfinite : pattern < infinityPattern) (negative : Bool) :
    ofRatio? negative num den = some (ofParts negative pattern) := by
  have hround : ofRatio? negative num den =
      if num = 0 then some (ofParts negative 0)
      else
        let power := max (floorLog2 num den - 52) (-1074)
        let m := scaledRound num den power
        let pattern := if m < 2 ^ 52 then m else (power + 1075).toNat * 2 ^ 52 + (m - 2 ^ 52)
        if pattern < infinityPattern then some (ofParts negative pattern) else none := rfl
  rw [hround, if_neg hnum]
  dsimp only
  rw [hpower, hm, hpattern, if_pos hfinite]

theorem eq_of_zpow_between {v : ℚ} {j k : ℤ} (hj : (2 : ℚ) ^ j ≤ v) (hj' : v < 2 ^ (j + 1))
    (hk : (2 : ℚ) ^ k ≤ v) (hk' : v < 2 ^ (k + 1)) : j = k := by
  have hone : (1 : ℚ) < 2 := by norm_num
  have hjk : j < k + 1 := (zpow_lt_zpow_iff_right₀ hone).mp (hj.trans_lt hk')
  have hkj : k < j + 1 := (zpow_lt_zpow_iff_right₀ hone).mp (hk.trans_lt hj')
  omega

namespace StandsFor

variable {x : Binary64} {v : ℚ}

theorem half_step_below (h : x.StandsFor v) : (x.significand - 1 / 2) * 2 ^ x.power ≤ v := by
  have hstep := x.step_pos
  have hbelow := h.below
  have hhalf : (if x.narrowBelow then x.step / 4 else x.step / 2) ≤ x.step / 2 := by
    split <;> linarith
  rw [← step, sub_mul, ← size_eq]
  linarith

theorem half_step_above (h : x.StandsFor v) : v ≤ (x.significand + 1 / 2) * 2 ^ x.power := by
  have habove := h.above
  rw [← step, add_mul, ← size_eq]
  linarith

theorem half_step_odd (h : x.StandsFor v) (hodd : x.significand % 2 = 1) :
    (x.significand - 1 / 2) * 2 ^ x.power < v ∧ v < (x.significand + 1 / 2) * 2 ^ x.power := by
  have hstep := x.step_pos
  obtain ⟨hbelow, habove⟩ := h.odd hodd
  have hhalf : (if x.narrowBelow then x.step / 4 else x.step / 2) ≤ x.step / 2 := by
    split <;> linarith
  rw [← step, sub_mul, add_mul, ← size_eq]
  constructor <;> linarith

/-- What a number stands for is below the power of two after it. -/
theorem lt_zpow (h : x.StandsFor v) : v < 2 ^ (x.power + 53) := by
  have hpow : (0 : ℚ) < 2 ^ x.power := by positivity
  have hlt : (x.significand : ℚ) + 1 ≤ 2 ^ (53 : ℤ) := by
    have hsignificand := x.significand_lt
    norm_cast
  calc v ≤ (x.significand + 1 / 2) * 2 ^ x.power := h.half_step_above
    _ < 2 ^ (53 : ℤ) * 2 ^ x.power := by
        gcongr
        linarith
    _ = 2 ^ (x.power + 53) := by rw [← zpow_add₀ (by norm_num), add_comm]

/-- Only a power of two stands for sizes below the power of two before it. -/
theorem of_lt_zpow (h : x.StandsFor v) (hpower : -1074 < x.power)
    (hlt : v < 2 ^ (x.power + 52)) : x.significand = 2 ^ 52 ∧ x.narrowBelow = true := by
  have hpow : (0 : ℚ) < 2 ^ x.power := by positivity
  have hle := le_significand hpower
  have hbelow := h.half_step_below
  rw [add_comm, zpow_add₀ (by norm_num)] at hlt
  have hbound : (x.significand : ℚ) < 2 ^ (52 : ℤ) + 1 := by
    have := lt_of_mul_lt_mul_right (hbelow.trans_lt hlt) hpow.le
    linarith
  have hbound' : x.significand < 2 ^ 52 + 1 := by
    norm_cast at hbound
  have hsignificand : x.significand = 2 ^ 52 := by omega
  refine ⟨hsignificand, ?_⟩
  unfold power at hpower
  unfold significand at hsignificand
  unfold narrowBelow
  split at hpower
  · omega
  next hfield =>
    rw [if_neg hfield] at hsignificand
    simp only [Bool.and_eq_true, decide_eq_true_eq]
    omega

end StandsFor

section Rounded

variable {x : Binary64} {num den : ℕ}

/-- In the binade of the number the significand is rounded in units of its last place. -/
theorem ofRatio?_of_le (hfinite : x.isFinite = true) (hnum : 0 < num) (hden : 0 < den)
    (h : x.StandsFor (num / den))
    (hle : (2 : ℚ) ^ (x.power + 52) ≤ num / den ∨ x.power = -1074) (negative : Bool) :
    ofRatio? negative num den = some (ofParts negative x.magnitude) := by
  obtain ⟨hlow, hhigh⟩ := floorLog2_spec hnum hden
  have hone : (1 : ℚ) < 2 := by norm_num
  have hleast := x.le_power
  have hupper : floorLog2 num den < x.power + 53 :=
    (zpow_lt_zpow_iff_right₀ hone).mp (hlow.trans_lt h.lt_zpow)
  have hlower : x.power + 52 < floorLog2 num den + 1 ∨ x.power = -1074 :=
    hle.imp_left fun hle => (zpow_lt_zpow_iff_right₀ hone).mp (hle.trans_lt hhigh)
  refine ofRatio?_eq hnum.ne' (by omega) ?_ x.pattern_eq (of_decide_eq_true hfinite) negative
  exact scaledRound_eq hden h.half_step_below h.half_step_above h.half_step_odd

/-- Below a power of two the units are half as large, and rounding reaches the next power. -/
theorem ofRatio?_of_lt (hfinite : x.isFinite = true) (hnum : 0 < num) (hden : 0 < den)
    (h : x.StandsFor (num / den)) (hpower : -1074 < x.power)
    (hlt : (num : ℚ) / den < 2 ^ (x.power + 52)) (negative : Bool) :
    ofRatio? negative num den = some (ofParts negative x.magnitude) := by
  obtain ⟨hlow, hhigh⟩ := floorLog2_spec hnum hden
  obtain ⟨hsignificand, hnarrow⟩ := h.of_lt_zpow hpower hlt
  have hstep := x.step_pos
  have hhalf : (2 : ℚ) ^ (x.power - 1) = x.step / 2 := by
    rw [zpow_sub₀ (by norm_num), zpow_one, step]
  have hquarter : ((2 ^ 53 : ℕ) - 1 / 2) * (2 : ℚ) ^ (x.power - 1) ≤ num / den := by
    have hbelow := h.below
    rw [if_pos hnarrow, size_eq, hsignificand] at hbelow
    rw [hhalf]
    push_cast at hbelow ⊢
    linarith
  have hlt' : (num : ℚ) / den < 2 ^ 52 * x.step := by
    rw [add_comm, zpow_add₀ (by norm_num), ← step] at hlt
    exact hlt
  have hfloor : floorLog2 num den = x.power + 51 := by
    refine eq_of_zpow_between hlow hhigh ?_ ?_
    · refine le_trans ?_ hquarter
      have hsplit : (2 : ℚ) ^ (x.power + 51) = 2 ^ (52 : ℤ) * 2 ^ (x.power - 1) := by
        rw [← zpow_add₀ (by norm_num)]
        congr 1
        ring
      rw [hsplit]
      gcongr
      norm_num
    · rw [add_assoc]
      exact hlt
  refine ofRatio?_eq (m := 2 ^ 53) (p := x.power - 1) hnum.ne' (by omega) ?_ ?_
    (of_decide_eq_true hfinite) negative
  · refine scaledRound_eq hden hquarter ?_ fun hodd => absurd hodd (by decide)
    rw [hhalf]
    push_cast
    linarith
  · rw [← x.pattern_eq, hsignificand, if_neg (by decide), if_neg (by decide)]
    omega

/-- A quotient that a number stands for is rounded to the number. -/
theorem ofRatio?_of_standsFor (hzero : x.isZero = false) (hfinite : x.isFinite = true)
    (hden : 0 < den) (h : x.StandsFor (num / den)) (negative : Bool) :
    ofRatio? negative num den = some (ofParts negative x.magnitude) := by
  have hnum : 0 < num := by
    rcases Nat.eq_zero_or_pos num with rfl | hnum
    · simpa using h.pos hzero
    · exact hnum
  have hleast := x.le_power
  rcases lt_or_ge ((num : ℚ) / den) (2 ^ (x.power + 52)) with hlt | hle
  · rcases hleast.lt_or_eq with hpower | hpower
    · exact ofRatio?_of_lt hfinite hnum hden h hpower hlt negative
    · exact ofRatio?_of_le hfinite hnum hden h (.inr hpower.symm) negative
  · exact ofRatio?_of_le hfinite hnum hden h (.inl hle) negative

end Rounded

end Binary64

end Arbor
