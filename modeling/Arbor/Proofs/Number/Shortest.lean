import Arbor.Number.Decimal
import Arbor.Proofs.Number.Digits
import Arbor.Proofs.Number.Rounding
import Mathlib.Data.List.TakeWhile
import Mathlib.Data.Nat.Cast.Order.Field

/-! The digits of a number are a hit on one of the grids of multiples of a power of ten. -/
namespace Arbor

namespace Binary64

variable {x : Binary64}

theorem ratio_eq (x : Binary64) : ∃ unit : ℕ, x.ratio.1 = x.significand * unit ∧
    0 < x.ratio.2 ∧ (unit : ℚ) / x.ratio.2 = x.step := by
  unfold ratio step
  cases x.power with
  | ofNat p =>
      refine ⟨2 ^ p, rfl, Nat.one_pos, ?_⟩
      rw [Nat.cast_one, div_one, cast_pow_eq_zpow]
      rfl
  | negSucc p =>
      refine ⟨1, (Nat.mul_one _).symm, Nat.pow_pos Nat.two_pos, ?_⟩
      rw [Nat.cast_one, cast_pow_eq_zpow, one_div, ← zpow_neg, Int.negSucc_eq]
      rfl

theorem ratio_div (x : Binary64) : (x.ratio.1 : ℚ) / x.ratio.2 = x.size := by
  obtain ⟨unit, hnum, -, hstep⟩ := x.ratio_eq
  rw [hnum, Nat.cast_mul, mul_div_assoc, hstep, size_eq]

theorem size_pos (hx : x.isZero = false) : 0 < x.size :=
  mul_pos (Nat.cast_pos.mpr (significand_pos hx)) x.step_pos

/-- How many quarters of a step a number stands for below itself. -/
def quartersBelow (x : Binary64) : ℕ := if x.narrowBelow then 1 else 2

theorem gap_below (x : Binary64) :
    (if x.narrowBelow then x.step / 4 else x.step / 2) = x.quartersBelow * (x.step / 4) := by
  unfold quartersBelow
  split
  · rw [Nat.cast_one, one_mul]
  · rw [Nat.cast_ofNat]
    ring

end Binary64

namespace Decimal

open Binary64

variable {x : Binary64}

/-- Whether `c` units, of which `num / den` is the number, are in the interval of the number. -/
def inside (x : Binary64) (num den c : ℕ) : Bool :=
  let quarter := num / x.significand
  let low := 4 * num - x.quartersBelow * quarter
  let high := 4 * num + 2 * quarter
  if x.significand % 2 = 0 then low ≤ 4 * c * den && 4 * c * den ≤ high
  else low < 4 * c * den && 4 * c * den < high

/-- Four times the distances, in units of the denominator. -/
theorem standsFor_mul_iff {unit den c : ℕ} {scale : ℚ} (hden : 0 < den) (hscale : 0 < scale)
    (hunit : (unit : ℚ) / den * scale = x.step) :
    x.StandsFor (c * scale) ↔
      4 * (x.significand * unit) ≤ 4 * c * den + x.quartersBelow * unit ∧
        4 * c * den ≤ 4 * (x.significand * unit) + 2 * unit ∧
        (x.significand % 2 = 1 →
          4 * (x.significand * unit) < 4 * c * den + x.quartersBelow * unit ∧
            4 * c * den < 4 * (x.significand * unit) + 2 * unit) := by
  have hdenq : (0 : ℚ) < den := Nat.cast_pos.mpr hden
  have hs : 0 < scale / (4 * den) := by positivity
  have hsize : x.size = ((4 * (x.significand * unit) : ℕ) : ℚ) * (scale / (4 * den)) := by
    rw [size_eq, ← hunit]
    push_cast
    field_simp
  have hlow : x.size - (if x.narrowBelow then x.step / 4 else x.step / 2) =
      (((4 * (x.significand * unit) : ℕ) : ℚ) - (x.quartersBelow * unit : ℕ)) *
        (scale / (4 * den)) := by
    rw [gap_below, hsize, ← hunit]
    push_cast
    field_simp
  have hhigh : x.size + x.step / 2 =
      ((4 * (x.significand * unit) + 2 * unit : ℕ) : ℚ) * (scale / (4 * den)) := by
    rw [hsize, ← hunit]
    push_cast
    field_simp
    ring
  have hvalue : (c : ℚ) * scale = ((4 * c * den : ℕ) : ℚ) * (scale / (4 * den)) := by
    push_cast
    field_simp
  have hbelow : x.size - (if x.narrowBelow then x.step / 4 else x.step / 2) ≤ c * scale ↔
      4 * (x.significand * unit) ≤ 4 * c * den + x.quartersBelow * unit := by
    rw [hlow, hvalue, mul_le_mul_iff_left₀ hs, sub_le_iff_le_add]
    exact_mod_cast Iff.rfl
  have hbelow' : x.size - (if x.narrowBelow then x.step / 4 else x.step / 2) < c * scale ↔
      4 * (x.significand * unit) < 4 * c * den + x.quartersBelow * unit := by
    rw [hlow, hvalue, mul_lt_mul_iff_left₀ hs, sub_lt_iff_lt_add]
    exact_mod_cast Iff.rfl
  have habove : c * scale ≤ x.size + x.step / 2 ↔
      4 * c * den ≤ 4 * (x.significand * unit) + 2 * unit := by
    rw [hhigh, hvalue, mul_le_mul_iff_left₀ hs, Nat.cast_le]
  have habove' : c * scale < x.size + x.step / 2 ↔
      4 * c * den < 4 * (x.significand * unit) + 2 * unit := by
    rw [hhigh, hvalue, mul_lt_mul_iff_left₀ hs, Nat.cast_lt]
  rw [← hbelow, ← habove, ← hbelow', ← habove']
  exact ⟨fun h => ⟨h.below, h.above, h.odd⟩, fun h => ⟨h.1, h.2.1, h.2.2⟩⟩

theorem inside_iff {unit den c : ℕ} {scale : ℚ} (hx : x.isZero = false) (hden : 0 < den)
    (hscale : 0 < scale) (hunit : (unit : ℚ) / den * scale = x.step) :
    inside x (x.significand * unit) den c = true ↔ x.StandsFor (c * scale) := by
  have hm := significand_pos hx
  have hquarters : x.quartersBelow * unit ≤ 2 * (x.significand * unit) := by
    refine (Nat.mul_le_mul_right unit (?_ : x.quartersBelow ≤ 2 * x.significand)).trans_eq
      (Nat.mul_assoc ..)
    unfold quartersBelow
    split <;> omega
  rw [standsFor_mul_iff hden hscale hunit, inside, Nat.mul_div_cancel_left unit hm]
  split
  · simp only [Bool.and_eq_true, decide_eq_true_eq]
    omega
  · simp only [Bool.and_eq_true, decide_eq_true_eq]
    omega

/-- The grid's lines around the number, and which of them is taken. -/
theorem onGrid?_eq (x : Binary64) (exponent : ℤ) {num den : ℕ}
    (h : overPower 10 x.ratio.1 x.ratio.2 exponent = (num, den)) :
    onGrid? x exponent =
      let below := inside x num den (num / den)
      let above := decide (num % den ≠ 0) && inside x num den (num / den + 1)
      if below && above then
        some (if 2 * (num % den) < den ∨ (2 * (num % den) = den ∧ num / den % 2 = 0)
          then num / den else num / den + 1)
      else if below then some (num / den)
      else if above then some (num / den + 1)
      else none := by
  cases exponent with
  | ofNat k =>
      cases h
      rfl
  | negSucc k =>
      cases h
      rfl

/-- The grid in lines: the number is `num / den` of them, and a line is hit if the number stands for
it. -/
theorem exists_lines (hx : x.isZero = false) (exponent : ℤ) :
    ∃ num den, overPower 10 x.ratio.1 x.ratio.2 exponent = (num, den) ∧ 0 < den ∧
      (num : ℚ) / den * 10 ^ exponent = x.size ∧
      ∀ c : ℕ, inside x num den c = true ↔ x.StandsFor (c * 10 ^ exponent) := by
  obtain ⟨unit, hnum, hden, hstep⟩ := x.ratio_eq
  have hscale : (0 : ℚ) < 10 ^ exponent := by positivity
  have hdiv := overPower_div (show 0 < 10 by decide) x.ratio.1 x.ratio.2 exponent
  have hunit := overPower_div (show 0 < 10 by decide) unit x.ratio.2 exponent
  rw [Nat.cast_ofNat, ratio_div] at hdiv
  rw [Nat.cast_ofNat, hstep] at hunit
  have hpos := @overPower_pos 10 x.ratio.1 x.ratio.2 (by decide) hden exponent
  -- the numerator is a multiple of the significand on every grid
  have hmultiple : overPower 10 x.ratio.1 x.ratio.2 exponent =
      (x.significand * (overPower 10 unit x.ratio.2 exponent).1,
        (overPower 10 unit x.ratio.2 exponent).2) := by
    rw [hnum]
    cases exponent with
    | ofNat k => rfl
    | negSucc k => exact Prod.ext (Nat.mul_assoc ..) rfl
  rw [hmultiple] at hdiv hpos
  refine ⟨_, _, hmultiple, hpos, ?_, fun c => ?_⟩
  · rw [hdiv, div_mul_cancel₀ _ hscale.ne']
  · refine inside_iff hx hpos hscale ?_
    rw [hunit, div_mul_cancel₀ _ hscale.ne']

theorem onGrid?_standsFor (hx : x.isZero = false) {exponent : ℤ} {c : ℕ}
    (h : onGrid? x exponent = some c) : x.StandsFor (c * 10 ^ exponent) := by
  obtain ⟨num, den, hlines, -, -, hinside⟩ := exists_lines hx exponent
  rw [onGrid?_eq x exponent hlines] at h
  rw [← hinside]
  dsimp only at h
  split at h
  next hboth =>
    simp only [Bool.and_eq_true] at hboth
    cases h
    split
    · exact hboth.1
    · exact hboth.2.2
  next hnot =>
    split at h
    next hbelow =>
      cases h
      exact hbelow
    next =>
      split at h
      next habove =>
        cases h
        exact (Bool.and_eq_true_iff.mp habove).2
      next => cases h

/-- A size less than half a step away from the number, and not below it if the step there is half as
long. -/
theorem standsFor_of_lt {v : ℚ} (habove : v < x.size + x.step / 2)
    (hbelow : x.size - x.step / 2 < v) (hnarrow : x.narrowBelow = true → x.size ≤ v) :
    x.StandsFor v := by
  have hstep := x.step_pos
  have hstrict : x.size - (if x.narrowBelow then x.step / 4 else x.step / 2) < v := by
    split
    next hx =>
      have hle := hnarrow hx
      linarith
    next => exact hbelow
  exact ⟨hstrict.le, habove.le, fun _ => ⟨hstrict, habove⟩⟩

theorem significand_of_narrowBelow (hx : x.narrowBelow = true) : x.significand = 2 ^ 52 := by
  unfold narrowBelow at hx
  simp only [Bool.and_eq_true, decide_eq_true_eq] at hx
  rw [significand, if_neg (by omega), hx.1, Nat.add_zero]

section SeventeenthDigit

variable {exponent : ℤ} (hclose : (10 : ℚ) ^ (exponent + 16) ≤ x.size)
include hclose

theorem mesh_lt_step : (10 : ℚ) ^ exponent < x.step := by
  have hstep := x.step_pos
  have hlt : (x.significand : ℚ) < 2 ^ (53 : ℤ) := by
    exact_mod_cast x.significand_lt
  have hmesh : (10 : ℚ) ^ exponent * 10 ^ (16 : ℤ) < x.step * 10 ^ (16 : ℤ) := by
    calc (10 : ℚ) ^ exponent * 10 ^ (16 : ℤ) = 10 ^ (exponent + 16) := by
          rw [← zpow_add₀ (by norm_num)]
      _ ≤ x.significand * x.step := hclose
      _ < 2 ^ (53 : ℤ) * x.step := by gcongr
      _ ≤ x.step * 10 ^ (16 : ℤ) := by
          rw [mul_comm]
          gcongr
          norm_num
  exact lt_of_mul_lt_mul_right hmesh (by positivity)

theorem mesh_lt_half (hnarrow : x.narrowBelow = true) : (10 : ℚ) ^ exponent < x.step / 2 := by
  have hstep := x.step_pos
  rw [zpow_add₀ (by norm_num), size_eq, significand_of_narrowBelow hnarrow] at hclose
  norm_num at hclose
  linarith

/-- Of the lines below and above the number it stands for one at least. -/
theorem standsFor_line {c : ℕ} {part : ℚ} (hsize : x.size = (c + part) * 10 ^ exponent)
    (hpart : 0 ≤ part) (hpart' : part < 1) :
    x.StandsFor (c * 10 ^ exponent) ∨ part ≠ 0 ∧ x.StandsFor ((c + 1) * 10 ^ exponent) := by
  have hmesh : (0 : ℚ) < 10 ^ exponent := by positivity
  have hwide := mesh_lt_step hclose
  rcases hpart.eq_or_lt with hzero | hpos
  · left
    refine standsFor_of_lt ?_ ?_ fun _ => ?_ <;> nlinarith
  · rcases Bool.eq_false_or_eq_true x.narrowBelow with hnarrow | hnarrow
    · right
      have hhalf := mesh_lt_half hclose hnarrow
      refine ⟨hpos.ne', standsFor_of_lt ?_ ?_ fun _ => ?_⟩ <;> nlinarith
    -- with equal neighbours it is the nearer line, which is less than half a step away
    · rcases lt_or_ge part (1 / 2) with hnear | hfar
      · left
        refine standsFor_of_lt ?_ ?_ fun h => ?_
        · nlinarith
        · nlinarith
        · rw [hnarrow] at h
          cases h
      · right
        refine ⟨hpos.ne', standsFor_of_lt ?_ ?_ fun _ => ?_⟩ <;> nlinarith

/-- The grid of the seventeenth digit has a hit: its lines are less than a step apart, and less than
half a step if the number is a power of two. -/
theorem onGrid?_ne_none (hx : x.isZero = false) : onGrid? x exponent ≠ none := by
  obtain ⟨num, den, hlines, hden, hsize, hinside⟩ := exists_lines hx exponent
  have hdenq : (0 : ℚ) < den := Nat.cast_pos.mpr hden
  have hparts : (num : ℚ) / den = (num / den : ℕ) + (num % den : ℕ) / (den : ℚ) := by
    rw [add_div' _ _ _ hdenq.ne', div_left_inj' hdenq.ne']
    exact_mod_cast (Nat.div_add_mod' num den).symm
  have hmod : ((num % den : ℕ) : ℚ) / den < 1 := by
    rw [div_lt_one hdenq]
    exact_mod_cast Nat.mod_lt num hden
  rw [hparts] at hsize
  rw [onGrid?_eq x exponent hlines]
  rcases standsFor_line hclose hsize.symm (by positivity) hmod with hbelow | ⟨hne, habove⟩
  · rw [← hinside] at hbelow
    simp only [hbelow, Bool.true_and, if_true]
    split <;> simp
  · have hne' : num % den ≠ 0 := by
      intro hzero
      rw [hzero, Nat.cast_zero, zero_div] at hne
      exact hne rfl
    rw [← Nat.cast_add_one, ← hinside] at habove
    simp only [habove, hne', ne_eq, not_false_eq_true, decide_true, Bool.and_self, Bool.and_true,
      if_true]
    split <;> simp

end SeventeenthDigit

theorem pow_digitCount_le {n : ℕ} (hn : n ≠ 0) :
    10 ^ (digitCount n - 1) ≤ n ∧ n < 10 ^ digitCount n := by
  have hpos : 0 < digitCount n := Nat.length_toDigits_pos
  refine ⟨?_, (Nat.length_toDigits_le_iff (by decide) hpos).mp le_rfl⟩
  rcases Nat.eq_zero_or_pos (digitCount n - 1) with hone | hmore
  · rw [hone, Nat.pow_zero]
    omega
  · by_contra hlt
    have hcount : digitCount n ≤ digitCount n - 1 :=
      (Nat.length_toDigits_le_iff (by decide) hmore).mpr (Nat.lt_of_not_le hlt)
    omega

theorem zpow_pointOf_le {num den : ℕ} (hnum : 0 < num) (hden : 0 < den) :
    (10 : ℚ) ^ (pointOf num den - 1) ≤ num / den := by
  have hdenq : (0 : ℚ) < den := Nat.cast_pos.mpr hden
  unfold pointOf
  split
  next hle =>
    obtain ⟨hlow, -⟩ := pow_digitCount_le (Nat.div_pos hle hden).ne'
    have hcount : 0 < digitCount (num / den) := Nat.length_toDigits_pos
    have hlow' : (10 : ℚ) ^ ((digitCount (num / den) - 1 : ℕ) : ℤ) ≤ (num / den : ℕ) := by
      rw [← Nat.cast_ofNat, ← cast_pow_eq_zpow, Nat.cast_le]
      exact hlow
    rw [Nat.cast_sub hcount] at hlow'
    exact hlow'.trans Nat.cast_div_le
  next hlt =>
    have hquotient : den / num ≠ 0 := (Nat.div_pos (Nat.le_of_not_le hlt) hnum).ne'
    obtain ⟨-, hhigh⟩ := pow_digitCount_le hquotient
    have hcount : 0 < digitCount (den / num) := Nat.length_toDigits_pos
    generalize digitCount (den / num) = len at hhigh hcount
    dsimp only
    split
    next heq =>
      rw [le_div_iff₀ hdenq, ← heq, Nat.cast_mul, cast_pow_eq_zpow, Nat.cast_sub hcount,
        mul_comm (num : ℚ), ← mul_assoc, Nat.cast_ofNat, ← zpow_add₀ (by norm_num)]
      rw [show (2 - (len : ℤ) - 1 + (len - (1 : ℕ))) = 0 by push_cast; ring, zpow_zero, one_mul]
    next =>
      have hden' : den < num * 10 ^ len := by
        rw [Nat.mul_comm]
        exact (Nat.div_lt_iff_lt_mul hnum).mp hhigh
      have hden'' : (den : ℚ) ≤ num * 10 ^ (len : ℤ) := by
        rw [← Nat.cast_ofNat (n := 10), ← cast_pow_eq_zpow, ← Nat.cast_mul, Nat.cast_le]
        exact hden'.le
      rw [le_div_iff₀ hdenq]
      calc (10 : ℚ) ^ (1 - (len : ℤ) - 1) * den
          ≤ 10 ^ (1 - (len : ℤ) - 1) * (num * 10 ^ (len : ℤ)) := by
            gcongr
        _ = num := by
            rw [mul_left_comm, ← zpow_add₀ (by norm_num)]
            rw [show (1 - (len : ℤ) - 1 + len) = 0 by ring, zpow_zero, mul_one]

/-- The search ends with a hit, at the seventeenth digit at the latest. -/
theorem search_spec (hx : x.isZero = false) {point : ℤ} (hpoint : (10 : ℚ) ^ (point - 1) ≤ x.size)
    {fuel count : ℕ} (hcount : count + fuel = 17) :
    ∃ c e, search x point (fuel + 1) count = ofCoefficient c e ∧ x.StandsFor (c * 10 ^ e) := by
  induction fuel generalizing count with
  | zero =>
      have hlast : point - count + 16 = point - 1 := by omega
      cases hgrid : onGrid? x (point - count) with
      | none => exact absurd hgrid (onGrid?_ne_none (hlast ▸ hpoint) hx)
      | some c =>
          refine ⟨c, point - count, ?_, onGrid?_standsFor hx hgrid⟩
          rw [search, hgrid]
  | succ fuel ih =>
      cases hgrid : onGrid? x (point - count) with
      | none =>
          rw [search, hgrid]
          exact ih (by omega)
      | some c =>
          refine ⟨c, point - count, ?_, onGrid?_standsFor hx hgrid⟩
          rw [search, hgrid]

theorem shortest_eq (hx : x.isZero = false) :
    ∃ c e, shortest x = ofCoefficient c e ∧ x.StandsFor (c * 10 ^ e) := by
  obtain ⟨unit, hnum, hden, hstep⟩ := x.ratio_eq
  have hsize := size_pos hx
  have hdenq : (0 : ℚ) < x.ratio.2 := Nat.cast_pos.mpr hden
  rw [← ratio_div, div_pos_iff_of_pos_right hdenq, Nat.cast_pos] at hsize
  have hpoint := zpow_pointOf_le hsize hden
  rw [ratio_div] at hpoint
  rw [shortest, if_neg (by rw [hx]; exact Bool.false_ne_true)]
  exact search_spec hx hpoint rfl

/-- The powers of two that bound the numbers are within the powers of ten that reading bounds them
by. -/
theorem two_zpow_le (k : ℕ) : (2 : ℚ) ^ (3 * (k : ℤ)) ≤ 10 ^ (k : ℤ) := by
  rw [zpow_mul]
  exact zpow_le_zpow_left₀ k.cast_nonneg (by norm_num) (by norm_num)

theorem power_le (hfinite : x.isFinite = true) : x.power ≤ 971 := by
  have hmagnitude : x.magnitude < infinityPattern := of_decide_eq_true hfinite
  have hfield : x.exponentField < 2047 :=
    (Nat.div_lt_iff_lt_mul (by decide)).mpr hmagnitude
  unfold power
  split <;> omega

/-- Where the digits of a multiple of a power of ten begin, if a number stands for it. -/
theorem digitCount_bounds (hx : x.isZero = false) (hfinite : x.isFinite = true) {c : ℕ} {e : ℤ}
    (h : x.StandsFor (c * 10 ^ e)) : -400 ≤ digitCount c + e ∧ digitCount c + e ≤ 400 := by
  have hpow : (0 : ℚ) < 10 ^ e := by positivity
  have hone : (1 : ℚ) < 10 := by norm_num
  have hc : c ≠ 0 := by
    rintro rfl
    simpa using h.pos hx
  obtain ⟨hlow, hhigh⟩ := pow_digitCount_le hc
  have hcount : 0 < digitCount c := Nat.length_toDigits_pos
  have hlow' : (10 : ℚ) ^ ((digitCount c : ℤ) + e - 1) ≤ c * 10 ^ e := by
    rw [add_sub_right_comm, zpow_add₀ (by norm_num)]
    gcongr
    rw [← Nat.cast_pred hcount, ← Nat.cast_ofNat, ← cast_pow_eq_zpow, Nat.cast_le]
    exact hlow
  have hhigh' : (c : ℚ) * 10 ^ e < 10 ^ ((digitCount c : ℤ) + e) := by
    rw [zpow_add₀ (by norm_num)]
    gcongr
    rw [← Nat.cast_ofNat (n := 10), ← cast_pow_eq_zpow, Nat.cast_lt]
    exact hhigh
  -- numbers lie between powers of two that are far inside these powers of ten
  have hgreatest : (c : ℚ) * 10 ^ e < 10 ^ (400 : ℤ) := by
    have hpower := power_le hfinite
    calc (c : ℚ) * 10 ^ e < 2 ^ (x.power + 53) := h.lt_zpow
      _ ≤ 2 ^ (3 * ((400 : ℕ) : ℤ)) := zpow_le_zpow_right₀ (by norm_num) (by omega)
      _ ≤ 10 ^ (400 : ℤ) := two_zpow_le 400
  have hleast : (10 : ℚ) ^ (-400 : ℤ) ≤ c * 10 ^ e := by
    have hpower := x.le_power
    have hm : (1 : ℚ) ≤ x.significand := Nat.one_le_cast.mpr (significand_pos hx)
    calc (10 : ℚ) ^ (-400 : ℤ) ≤ 2 ^ (-(3 * ((400 : ℕ) : ℤ))) := by
          rw [zpow_neg, zpow_neg]
          exact inv_anti₀ (by positivity) (two_zpow_le 400)
      _ ≤ 2 ^ (-1 + x.power) := zpow_le_zpow_right₀ (by norm_num) (by omega)
      _ = (1 - 1 / 2) * 2 ^ x.power := by
          rw [zpow_add₀ (by norm_num)]
          norm_num
      _ ≤ (x.significand - 1 / 2) * 2 ^ x.power := by gcongr
      _ ≤ c * 10 ^ e := h.half_step_below
  have hupper := (zpow_lt_zpow_iff_right₀ hone).mp (hlow'.trans_lt hgreatest)
  have hlower := (zpow_lt_zpow_iff_right₀ hone).mp (hleast.trans_lt hhigh')
  omega

/-- Reading a multiple of a power of ten gives the number that stands for it. -/
theorem ofDecimal?_of_standsFor (hx : x.isZero = false) (hfinite : x.isFinite = true) {c : ℕ}
    {e : ℤ} (h : x.StandsFor (c * 10 ^ e)) (negative : Bool) :
    ofDecimal? negative c e = some (ofParts negative x.magnitude) := by
  obtain ⟨hlower, hupper⟩ := digitCount_bounds hx hfinite h
  have hc : c ≠ 0 := by
    rintro rfl
    simpa using h.pos hx
  unfold digitCount at hlower hupper
  unfold ofDecimal?
  dsimp only
  rw [if_neg (by omega), if_neg (by omega)]
  cases e with
  | ofNat k =>
      refine ofRatio?_of_standsFor hx hfinite Nat.one_pos ?_ negative
      rw [Nat.cast_mul, cast_pow_eq_zpow, Nat.cast_one, div_one]
      exact h
  | negSucc k =>
      refine ofRatio?_of_standsFor hx hfinite (Nat.pow_pos (by decide)) ?_ negative
      rw [cast_pow_eq_zpow, div_eq_mul_inv, ← zpow_neg]
      exact h

structure Proper (d : Decimal) : Prop where
  digits : d.digits.AreDigits
  ne_nil : d.digits ≠ []
  head : d.digits.head? ≠ some 48
  point : -400 ≤ d.point ∧ d.point ≤ 400

def value (d : Decimal) : ℚ := d.digits.natOfDigits * 10 ^ (d.point - d.digits.length)

theorem exists_ofNat_eq (c : ℕ) (e : ℤ) :
    ∃ n, Bytes.ofNat c = (ofCoefficient c e).digits ++ List.replicate n 48 := by
  let isZero : UInt8 → Bool := fun x => decide (x = 48)
  have hzeros : ∀ y ∈ (Bytes.ofNat c).reverse.takeWhile isZero, y = 48 := by
    intro y hy
    have hzero : isZero y = true := List.mem_takeWhile_imp hy
    exact of_decide_eq_true hzero
  have hsplit : (Bytes.ofNat c).reverse.takeWhile isZero ++
      (Bytes.ofNat c).reverse.dropWhile isZero = (Bytes.ofNat c).reverse :=
    List.takeWhile_append_dropWhile
  rw [List.eq_replicate_of_mem hzeros] at hsplit
  refine ⟨((Bytes.ofNat c).reverse.takeWhile isZero).length, ?_⟩
  rw [← List.reverse_inj, List.reverse_append, List.reverse_replicate, ofCoefficient,
    List.reverse_reverse]
  exact hsplit.symm

theorem point_ofCoefficient (c : ℕ) (e : ℤ) :
    (ofCoefficient c e).point = (Bytes.ofNat c).length + e := rfl

theorem value_ofCoefficient (c : ℕ) (e : ℤ) : (ofCoefficient c e).value = c * 10 ^ e := by
  obtain ⟨n, hdigits⟩ := exists_ofNat_eq c e
  have hc : c = (ofCoefficient c e).digits.natOfDigits * 10 ^ n := by
    have hvalue := Bytes.natOfDigits_ofNat c
    rw [hdigits, Bytes.natOfDigits_append, Bytes.natOfDigits_zeros, List.length_replicate,
      Nat.add_zero] at hvalue
    exact hvalue.symm
  have hpoint : (ofCoefficient c e).point - (ofCoefficient c e).digits.length = n + e := by
    rw [point_ofCoefficient, hdigits, List.length_append, List.length_replicate]
    push_cast
    ring
  calc (ofCoefficient c e).value
      = ((ofCoefficient c e).digits.natOfDigits * 10 ^ n : ℕ) * 10 ^ e := by
        rw [value, hpoint, zpow_add₀ (by norm_num), Nat.cast_mul, cast_pow_eq_zpow, mul_assoc,
          Nat.cast_ofNat]
    _ = c * 10 ^ e := by rw [← hc]

theorem proper_ofCoefficient {c : ℕ} {e : ℤ} (hc : c ≠ 0)
    (hpoint : -400 ≤ digitCount c + e ∧ digitCount c + e ≤ 400) : (ofCoefficient c e).Proper := by
  obtain ⟨n, hdigits⟩ := exists_ofNat_eq c e
  have hne : (ofCoefficient c e).digits ≠ [] := by
    intro hnil
    rw [hnil, List.nil_append] at hdigits
    have hzero := Bytes.natOfDigits_zeros n
    rw [← hdigits, Bytes.natOfDigits_ofNat] at hzero
    exact hc hzero
  refine ⟨?_, hne, ?_, ?_⟩
  · refine (Bytes.areDigits_ofNat c).sublist ?_
    rw [hdigits]
    exact List.sublist_append_left ..
  · rw [← List.head?_append_of_ne_nil _ hne, ← hdigits]
    exact Bytes.head?_ofNat_ne hc
  · rw [point_ofCoefficient, Bytes.length_ofNat]
    exact hpoint

/-- The number stands for what its shortest digits make. -/
theorem shortest_spec (hx : x.isZero = false) (hfinite : x.isFinite = true) :
    (shortest x).Proper ∧ x.StandsFor (shortest x).value := by
  obtain ⟨c, e, hshortest, hstandsFor⟩ := shortest_eq hx
  have hc : c ≠ 0 := by
    rintro rfl
    simpa using hstandsFor.pos hx
  rw [hshortest, value_ofCoefficient]
  exact ⟨proper_ofCoefficient hc (digitCount_bounds hx hfinite hstandsFor), hstandsFor⟩

end Decimal

end Arbor
