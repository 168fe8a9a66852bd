import Arbor.Proofs.Number.Numeral
import Arbor.Proofs.Text.Token

/-! Finite numbers are spelt by numerals, infinities and NaNs by their names. -/
namespace Arbor

theorem Exponent.point_not_mem_text (e : Exponent) : 46 ∉ e.text := by
  intro h
  rcases List.mem_cons.mp h with h | h
  · cases h
  · rcases List.mem_cons.mp h with h | h
    · unfold sign at h
      split at h <;> cases h
    · cases e.areDigits 46 h

namespace Numeral

variable {n : Numeral}

theorem mem_text (n : Numeral) {c : UInt8} (hc : c ∈ n.text) :
    Bytes.isDigit c = true ∨ c ∈ ([43, 45, 46, 101] : Bytes) := by
  unfold text at hc
  split at hc
  · rcases List.mem_cons.mp hc with rfl | hc
    · exact .inr (by decide)
    · exact n.mem_body hc
  · exact n.mem_body hc

theorem not_mem_text (n : Numeral) {c : UInt8} (hdigit : Bytes.isDigit c = false)
    (hother : c ∉ ([43, 45, 46, 101] : Bytes)) : c ∉ n.text := by
  intro hc
  rcases n.mem_text hc with h | h
  · exact Bool.noConfusion (h.symm.trans hdigit)
  · exact hother h

theorem isToken_text (n : Numeral) : n.text.IsToken := by
  intro c hc
  rcases n.mem_text hc with hdigit | hother
  · simp [Bytes.isTokenByte, hdigit]
  · simp only [List.mem_cons, List.not_mem_nil, or_false] at hother
    rcases hother with rfl | rfl | rfl | rfl <;> rfl

theorem text_eq (n : Numeral) (hexponent : n.exponent = none) :
    n.text = (if n.negative then [45] else []) ++ (n.whole ++ n.fraction) := by
  have htail : n.tail = [] := by rw [tail, hexponent]; rfl
  rw [text, body, htail, List.append_nil]
  split <;> rfl

/-- Only a numeral with places has a point. -/
theorem point_mem_text (n : Numeral) : 46 ∈ n.text ↔ n.places ≠ [] := by
  have hwhole : 46 ∉ n.whole := fun h => by cases n.whole_digits 46 h
  have htail : 46 ∉ n.tail := by
    intro h
    unfold tail at h
    cases he : n.exponent with
    | none =>
        rw [he] at h
        cases h
    | some e =>
        rw [he] at h
        exact absurd h e.point_not_mem_text
  have hbody : 46 ∈ n.body ↔ n.places ≠ [] := by
    rw [body, fraction, List.mem_append, List.mem_append]
    split <;> simp [*]
  rw [← hbody, text]
  split <;> simp

theorem mark_mem_text (n : Numeral) : 101 ∈ n.text ↔ n.exponent ≠ none := by
  have hdigits : ∀ {ds : Bytes}, ds.AreDigits → 101 ∉ ds := fun hds h => by cases hds 101 h
  have hfraction : 101 ∉ n.fraction := by
    unfold fraction
    split
    · exact List.not_mem_nil
    · simpa using hdigits n.places_digits
  have hbody : 101 ∈ n.body ↔ n.exponent ≠ none := by
    rw [body, List.mem_append, List.mem_append, tail]
    cases n.exponent with
    | none => simp [hdigits n.whole_digits, hfraction]
    | some e => simp [Exponent.text]
  rw [← hbody, text]
  split <;> simp

theorem places_ne_nil (n : Numeral) (hcoefficient : n.coefficient ≠ 0) (hwhole : n.whole = [48]) :
    n.places ≠ [] := by
  intro hplaces
  rw [coefficient, hwhole, hplaces] at hcoefficient
  exact hcoefficient rfl

/-- A number without a point may have one, with a zero after it. -/
theorem exists_point (n : Numeral) (hplaces : n.places = []) (hexponent : n.exponent = none) :
    ∃ m : Numeral, m.text = n.text ++ [46, 48] ∧ m.exponent = none ∧ m.places ≠ [] ∧
      ∀ x, n.Spells x → m.Spells x := by
  refine ⟨⟨n.negative, n.whole, [48], none, n.whole_digits, n.whole_ne_nil, n.whole_head, .zeros 1⟩,
    ?_, rfl, by simp, ?_⟩
  · rw [text_eq _ rfl, text_eq n hexponent, fraction, fraction, if_pos hplaces]
    simp
  · rintro x ⟨hnegative, hstands⟩
    refine ⟨hnegative, ?_⟩
    have hvalue : ((n.whole ++ [48] : Bytes).natOfDigits : ℚ) * 10 ^ (0 - ((1 : ℕ) : ℤ)) =
        n.coefficient * 10 ^ n.scale := by
      have hzero : Bytes.natOfDigits [48] = 0 := rfl
      rw [coefficient, scale, hplaces, hexponent, Bytes.natOfDigits_append, hzero]
      norm_num
      ring
    exact hvalue ▸ hstands

/-- A numeral is no name of a number: it begins with a digit, after its sign if it has one. -/
theorem named?_text (n : Numeral) : Reading.named? n.text = none := by
  have hhead : ∀ {c d : UInt8} {b e : Bytes}, Bytes.isDigit c = true → 97 ≤ d.toNat →
      Reading.lower (c :: b) ≠ d :: e := by
    intro c d b e hc hd heq
    obtain ⟨hlow, hhigh⟩ := Bytes.isDigit_iff.mp hc
    have hsame : (if 65 ≤ c && c ≤ 90 then c + 32 else c) = c := by
      refine if_neg ?_
      simp only [Bool.and_eq_true, decide_eq_true_eq, UInt8.le_iff_toNat_le, UInt8.reduceToNat]
      omega
    rw [Reading.lower, List.map_cons, hsame, List.cons.injEq] at heq
    rw [← heq.1] at hd
    omega
  obtain ⟨c, cs, hbody, hc⟩ : ∃ c cs, n.body = c :: cs ∧ Bytes.isDigit c = true := by
    obtain ⟨c, cs, hcs⟩ := List.exists_cons_of_ne_nil n.whole_ne_nil
    exact ⟨c, cs ++ (n.fraction ++ n.tail), by rw [body, hcs, List.cons_append],
      n.whole_digits c (by simp [hcs])⟩
  have hnan : Reading.lower n.text ≠ ("nan" : Bytes) := by
    unfold text
    split
    · intro heq
      cases (List.cons.inj (heq : _ :: _ = _)).1
    · rw [hbody]
      exact hhead hc (by decide)
  unfold Reading.named?
  rw [sign_text]
  dsimp only
  rw [hbody, if_neg, if_neg hnan]
  rintro (heq | heq)
  · exact hhead hc (by decide) heq
  · exact hhead hc (by decide) heq

theorem Spells.coefficient_ne_zero {x : Binary64} (h : n.Spells x) (hx : x.isZero = false) :
    n.coefficient ≠ 0 := by
  intro hzero
  have hpos := h.standsFor.pos hx
  rw [hzero] at hpos
  simp at hpos

theorem Spells.float? {x : Binary64} (h : n.Spells x) (hx : x.isZero = false)
    (hfinite : x.isFinite = true) : Reading.float? n.text = some x := by
  rw [Reading.float?, n.named?_text, h.numeral? hx hfinite]
  rfl

end Numeral

namespace Binary64

variable {x : Binary64}

theorem eq_infinity (hx : x.isInfinite = true) : x = infinity x.negative := by
  rw [infinity, ← of_decide_eq_true hx, ofParts_self]

theorem isNaN_or_isInfinite_or_isFinite (x : Binary64) :
    x.isNaN = true ∨ x.isInfinite = true ∨ x.isFinite = true := by
  simp only [isNaN, isInfinite, isFinite, decide_eq_true_eq]
  omega

theorem isNaN_of_isInfinite (hx : x.isInfinite = true) : x.isNaN = false := by
  have hmagnitude : x.magnitude = infinityPattern := of_decide_eq_true hx
  exact decide_eq_false (by omega)

theorem isInfinite_of_isFinite (hx : x.isFinite = true) : x.isInfinite = false := by
  have hlt : x.magnitude < infinityPattern := of_decide_eq_true hx
  exact decide_eq_false hlt.ne

theorem isNaN_of_isFinite (hx : x.isFinite = true) : x.isNaN = false := by
  have hlt : x.magnitude < infinityPattern := of_decide_eq_true hx
  exact decide_eq_false (by omega)

theorem isFinite_of_isNaN (hx : x.isNaN = true) : x.isFinite = false := by
  refine Bool.eq_false_iff.mpr fun hfinite => ?_
  rw [isNaN_of_isFinite hfinite] at hx
  cases hx

theorem isFinite_of_isInfinite (hx : x.isInfinite = true) : x.isFinite = false := by
  refine Bool.eq_false_iff.mpr fun hfinite => ?_
  rw [isInfinite_of_isFinite hfinite] at hx
  cases hx

theorem canonical_of_isFinite (hzero : x.isZero = false) (hx : x.isFinite = true) :
    x.canonical = x := canonical_eq_self hzero (isNaN_of_isFinite hx)

theorem canonical_infinity (hx : x.isInfinite = true) : x.canonical = infinity x.negative := by
  rw [← eq_infinity hx]
  have hmagnitude : x.magnitude = infinityPattern := of_decide_eq_true hx
  refine canonical_eq_self (decide_eq_false ?_) (isNaN_of_isInfinite hx)
  rw [hmagnitude]
  decide

theorem general_of_isNaN (hx : x.isNaN = true) : x.general = "NaN" := if_pos hx

theorem general_of_isInfinite (hx : x.isInfinite = true) :
    x.general = if x.negative then Bytes.ofString "-Inf" else Bytes.ofString "+Inf" := by
  rw [general, isNaN_of_isInfinite hx, hx]
  rfl

theorem exists_numeral_general (hx : x.isZero = false) (hfinite : x.isFinite = true) :
    ∃ n : Numeral, n.text = x.general ∧ n.Spells x := by
  unfold general
  rw [isNaN_of_isFinite hfinite, isInfinite_of_isFinite hfinite, if_neg Bool.false_ne_true,
    if_neg Bool.false_ne_true]
  dsimp only
  split
  next =>
    obtain ⟨n, htext, -, hspells⟩ := exists_numeral_plain hx hfinite
    exact ⟨n, htext, hspells⟩
  next => exact exists_numeral_scientific (by decide) hx hfinite

theorem standsFor_size (x : Binary64) : x.StandsFor x.size := by
  have hstep := x.step_pos
  exact Decimal.standsFor_of_lt (by linarith) (by linarith) fun _ => le_rfl

theorem exists_numeral_integralDigits (hintegral : x.isIntegral = true) :
    ∃ n : Numeral, n.text = x.integralDigits ++ [46, 48] ∧ n.exponent = none ∧ n.Spells x := by
  obtain ⟨-, hmod⟩ := (Bool.and_eq_true_iff ..).mp hintegral
  obtain ⟨unit, -, hden, -⟩ := x.ratio_eq
  have hsize : ((x.ratio.1 / x.ratio.2 : ℕ) : ℚ) = x.size := by
    rw [← ratio_div, eq_div_iff (Nat.cast_ne_zero.mpr hden.ne')]
    exact_mod_cast Nat.div_mul_cancel (Nat.dvd_of_mod_eq_zero (of_decide_eq_true hmod))
  obtain ⟨n, htext, hexponent, -, hspells⟩ := Numeral.exists_point ⟨x.negative,
    Bytes.ofNat (x.ratio.1 / x.ratio.2), [], none, Bytes.areDigits_ofNat _, Bytes.ofNat_ne_nil _,
    Bytes.head_ofNat _, .nil⟩ rfl rfl
  refine ⟨n, ?_, hexponent, hspells x ⟨rfl, ?_⟩⟩
  · rw [htext, integralDigits, signed, Numeral.text_eq _ rfl, Numeral.fraction, if_pos rfl]
    split <;> simp
  · have hcoefficient : ((Bytes.ofNat (x.ratio.1 / x.ratio.2) ++ []).natOfDigits : ℚ) *
        10 ^ (0 - ((0 : ℕ) : ℤ)) = x.size := by
      rw [List.append_nil, Bytes.natOfDigits_ofNat, ← hsize]
      norm_num
    exact hcoefficient ▸ x.standsFor_size

/-- A number other than zero is read back from its general text. -/
theorem float?_general (hx : x.isZero = false) : Reading.float? x.general = some x.canonical := by
  rcases x.isNaN_or_isInfinite_or_isFinite with hnan | hinfinite | hfinite
  · rw [canonical_of_isNaN hnan, general_of_isNaN hnan]
    rfl
  · rw [canonical_infinity hinfinite, general_of_isInfinite hinfinite]
    cases x.negative <;> rfl
  · obtain ⟨n, htext, hspells⟩ := exists_numeral_general hx hfinite
    rw [← htext, hspells.float? hx hfinite, canonical_of_isFinite hx hfinite]

theorem isToken_general (hx : x.isZero = false) : x.general.IsToken := by
  rcases x.isNaN_or_isInfinite_or_isFinite with hnan | hinfinite | hfinite
  · rw [general_of_isNaN hnan]
    decide
  · rw [general_of_isInfinite hinfinite]
    cases x.negative <;> decide
  · obtain ⟨n, htext, -⟩ := exists_numeral_general hx hfinite
    exact htext ▸ n.isToken_text

end Binary64

end Arbor
