import Arbor.Json.Parser
import Arbor.Json.Printer
import Arbor.Proofs.Number.Shortest

/-! Every number that JSON writes is a numeral, and numerals are read to their end. -/
namespace Arbor

/-- A signed exponent within the range that readers keep. -/
structure Exponent where
  negative : Bool
  digits : Bytes
  areDigits : digits.AreDigits
  ne_nil : digits ≠ []
  short : digits.length ≤ 400
  small : digits.natOfDigits ≤ 10000

namespace Exponent

def sign (e : Exponent) : UInt8 := if e.negative then 45 else 43

def text (e : Exponent) : Bytes := 101 :: e.sign :: e.digits

def value (e : Exponent) : ℤ :=
  if e.negative then -(e.digits.natOfDigits : ℤ) else e.digits.natOfDigits

end Exponent

/-- A number as JSON spells it. -/
structure Numeral where
  negative : Bool
  whole : Bytes
  places : Bytes
  exponent : Option Exponent
  whole_digits : whole.AreDigits
  whole_ne_nil : whole ≠ []
  whole_head : whole = [48] ∨ whole.head? ≠ some 48
  places_digits : places.AreDigits

namespace Numeral

def fraction (n : Numeral) : Bytes := if n.places = [] then [] else 46 :: n.places

def tail (n : Numeral) : Bytes := n.exponent.elim [] Exponent.text

def body (n : Numeral) : Bytes := n.whole ++ (n.fraction ++ n.tail)

def text (n : Numeral) : Bytes := if n.negative then 45 :: n.body else n.body

def coefficient (n : Numeral) : ℕ := (n.whole ++ n.places).natOfDigits

def scale (n : Numeral) : ℤ := n.exponent.elim 0 Exponent.value - n.places.length

/-- A text that does not go on a numeral. -/
def Ends (rest : Bytes) : Prop :=
  ∀ c, rest.head? = some c → Bytes.isDigit c = false ∧ c ≠ 46 ∧ c ≠ 101 ∧ c ≠ 69

section Scanning

open JsonValue

variable {rest : Bytes}

theorem digits?_append {ds : Bytes} (hne : ds ≠ []) (hds : ds.AreDigits)
    (hrest : ∀ c, rest.head? = some c → Bytes.isDigit c = false) :
    digits? (ds ++ rest) = some (ds, rest) := by
  have htake : (ds ++ rest).takeWhile Bytes.isDigit = ds := by
    rw [List.takeWhile_append_of_pos hds]
    cases rest with
    | nil => simp
    | cons c rest => simp [hrest c rfl]
  have hdrop : (ds ++ rest).dropWhile Bytes.isDigit = rest := by
    rw [List.dropWhile_append_of_pos hds]
    cases rest with
    | nil => rfl
    | cons c rest => simp [hrest c rfl]
  rw [digits?, List.span_eq_takeWhile_dropWhile, htake, hdrop]
  exact if_neg hne

theorem integerPart?_whole (n : Numeral)
    (hrest : ∀ c, rest.head? = some c → Bytes.isDigit c = false) :
    integerPart? (n.whole ++ rest) = some (n.whole, rest) := by
  rcases n.whole_head with hzero | hhead
  · rw [hzero]
    rfl
  · rw [← digits?_append n.whole_ne_nil n.whole_digits hrest]
    unfold integerPart?
    split
    next heq =>
      rw [← List.head?_append_of_ne_nil _ n.whole_ne_nil, heq] at hhead
      exact absurd rfl hhead
    next => rfl

theorem head_tail (n : Numeral) (hrest : Ends rest) {c : UInt8}
    (hc : (n.tail ++ rest).head? = some c) : Bytes.isDigit c = false ∧ c ≠ 46 := by
  unfold tail at hc
  cases he : n.exponent with
  | none =>
      rw [he] at hc
      obtain ⟨hdigit, hpoint, -⟩ := hrest c hc
      exact ⟨hdigit, hpoint⟩
  | some e =>
      rw [he] at hc
      cases hc
      exact ⟨rfl, by decide⟩

theorem fractionPart?_fraction (n : Numeral) (hrest : Ends rest) :
    fractionPart? (n.fraction ++ (n.tail ++ rest)) = some (n.fraction, n.tail ++ rest) := by
  unfold fraction
  split
  next =>
    rw [List.nil_append]
    unfold fractionPart?
    split
    next heq => exact absurd rfl (head_tail n hrest (by rw [heq]; rfl)).2
    next => rfl
  next hne =>
    rw [List.cons_append, fractionPart?, digits?_append hne n.places_digits fun c hc =>
      (head_tail n hrest hc).1]
    rfl

theorem exponentPart?_tail (n : Numeral) (hrest : Ends rest) :
    exponentPart? (n.tail ++ rest) = some (n.tail, rest) := by
  unfold tail
  cases n.exponent with
  | none =>
      cases rest with
      | nil => rfl
      | cons c rest =>
          obtain ⟨-, -, he, hE⟩ := hrest c rfl
          exact if_neg (by simp [he, hE])
  | some e =>
      have hdigits := digits?_append e.ne_nil e.areDigits fun c hc => (hrest c hc).1
      have hsign : (e.sign = 43 || e.sign = 45 : Bool) = true := by
        unfold Exponent.sign
        cases e.negative <;> rfl
      simp only [Option.elim_some, Exponent.text, List.cons_append, exponentPart?, hdigits, hsign,
        decide_true, Bool.true_or, if_true, Option.map_some]

theorem head_fraction (n : Numeral) (hrest : Ends rest) {c : UInt8}
    (hc : (n.fraction ++ (n.tail ++ rest)).head? = some c) : Bytes.isDigit c = false := by
  unfold fraction at hc
  split at hc
  · exact (head_tail n hrest hc).1
  · cases hc
    rfl

/-- A numeral is cut off what follows it. -/
theorem numberText?_text (n : Numeral) (hrest : Ends rest) :
    numberText? (n.text ++ rest) = some (n.text, rest) := by
  have hbody : n.body ++ rest = n.whole ++ (n.fraction ++ (n.tail ++ rest)) := by
    simp [body, List.append_assoc]
  have hwhole := integerPart?_whole n fun c => head_fraction n hrest
  have hfraction := fractionPart?_fraction n hrest
  have htail := exponentPart?_tail n hrest
  unfold text
  split
  next =>
    rw [List.cons_append, hbody, numberText?]
    simp [hwhole, hfraction, htail, body]
  next =>
    obtain ⟨c, cs, hcs⟩ := List.exists_cons_of_ne_nil n.whole_ne_nil
    have hc : c ≠ 45 := by
      rintro rfl
      have := n.whole_digits 45 (by simp [hcs])
      cases this
    rw [hbody, numberText?]
    · simp [hwhole, hfraction, htail, body]
    · intro cs' heq
      rw [hcs, List.cons_append, List.cons.injEq] at heq
      exact hc heq.1

theorem exists_text_eq (n : Numeral) :
    ∃ c cs, n.text = c :: cs ∧ (c = 45 ∨ Bytes.isDigit c = true) := by
  obtain ⟨c, cs, hcs⟩ := List.exists_cons_of_ne_nil n.whole_ne_nil
  unfold text
  split
  next => exact ⟨45, n.body, rfl, .inl rfl⟩
  next =>
    refine ⟨c, cs ++ (n.fraction ++ n.tail), ?_, .inr (n.whole_digits c (by simp [hcs]))⟩
    rw [body, hcs, List.cons_append]

end Scanning

section Reading

open Reading

/-- Digits are added to the value, and after a point they count as places. -/
theorem mantissa_digits {ds : Bytes} (hds : ds.AreDigits) (value places : ℕ)
    (pointSeen any : Bool) (rest : Bytes) :
    mantissa 10 value places pointSeen any (ds ++ rest) =
      mantissa 10 (ds.foldl (fun n d => 10 * n + (d.toNat - 48)) value)
        (if pointSeen then places + ds.length else places) pointSeen (any || !ds.isEmpty) rest := by
  induction ds generalizing value places any with
  | nil => simp
  | cons x ds ih =>
      have hx := hds x List.mem_cons_self
      obtain ⟨hvalue, hlt⟩ := hexValue?_digit hx
      have hbar : x ≠ 95 := by
        rintro rfl
        cases hx
      have hpoint : x ≠ 46 := by
        rintro rfl
        cases hx
      rw [List.cons_append, mantissa]
      · simp only [hvalue, if_pos hlt]
        rw [ih fun y hy => hds y (List.mem_cons_of_mem x hy)]
        cases pointSeen <;> simp [Nat.add_assoc, Nat.add_comm 1]
      · exact hbar
      · exact hpoint

theorem mantissa_tail (n : Numeral) (value places : ℕ) (pointSeen any : Bool) :
    mantissa 10 value places pointSeen any n.tail = (value, places, any, n.tail) := by
  unfold tail
  cases n.exponent with
  | none => rfl
  | some e => rfl

theorem mantissa_body (n : Numeral) :
    mantissa 10 0 0 false false n.body = (n.coefficient, n.places.length, true, n.tail) := by
  have hany : (!n.whole.isEmpty) = true := by
    rw [Bool.not_eq_true', List.isEmpty_eq_false_iff]
    exact n.whole_ne_nil
  rw [body, mantissa_digits n.whole_digits, coefficient, Bytes.natOfDigits, List.foldl_append,
    Bool.false_or, hany, if_neg Bool.false_ne_true]
  by_cases hplaces : n.places = []
  · rw [fraction, if_pos hplaces, List.nil_append, mantissa_tail, hplaces]
    rfl
  · rw [fraction, if_neg hplaces, List.cons_append, mantissa, if_neg Bool.false_ne_true,
      mantissa_digits n.places_digits, mantissa_tail, if_pos rfl, Bool.true_or, Nat.zero_add]

theorem exponent?_text (e : Exponent) : exponent? (e.sign :: e.digits) = some e.value := by
  have hsign : Reading.sign (e.sign :: e.digits) = (e.negative, e.digits) := by
    unfold Exponent.sign
    cases e.negative <;> rfl
  obtain ⟨x, ds, hds⟩ := List.exists_cons_of_ne_nil e.ne_nil
  have hx : Bytes.isDigit x = true := e.areDigits x (by simp [hds])
  have hfilter : e.digits.filter (· ≠ 95) = e.digits := by
    refine List.filter_eq_self.mpr fun y hy => decide_eq_true ?_
    rintro rfl
    have hbar := e.areDigits 95 hy
    cases hbar
  have hall : e.digits.all Bytes.isDigit = true := List.all_eq_true.mpr e.areDigits
  rw [exponent?, hsign]
  dsimp only
  rw [hfilter, hall, List.take_of_length_le e.short, Nat.min_eq_left e.small, hds]
  simp [hx, Exponent.value, hds]

/-- The bytes of a numeral: no base mark and no bar is among them. -/
theorem mem_body (n : Numeral) {x : UInt8} (hx : x ∈ n.body) :
    Bytes.isDigit x = true ∨ x ∈ ([43, 45, 46, 101] : Bytes) := by
  unfold body fraction tail at hx
  rcases List.mem_append.mp hx with hx | hx
  · exact .inl (n.whole_digits x hx)
  rcases List.mem_append.mp hx with hx | hx
  · split at hx
    · cases hx
    · rcases List.mem_cons.mp hx with rfl | hx
      · exact .inr (by decide)
      · exact .inl (n.places_digits x hx)
  · cases he : n.exponent with
    | none =>
        rw [he] at hx
        cases hx
    | some e =>
        rw [he] at hx
        rcases List.mem_cons.mp hx with rfl | hx
        · exact .inr (by decide)
        rcases List.mem_cons.mp hx with rfl | hx
        · refine .inr ?_
          unfold Exponent.sign
          cases e.negative <;> decide
        · exact .inl (e.areDigits x hx)

theorem sign_text (n : Numeral) : Reading.sign n.text = (n.negative, n.body) := by
  unfold text
  split
  next h => rw [h, Reading.sign]
  next h =>
    rw [body, sign_append n.whole_ne_nil n.whole_digits, eq_false_of_ne_true h]

theorem ne_of_mem_body (n : Numeral) {x : UInt8} (hx : x ∈ n.body) :
    x ≠ 88 ∧ x ≠ 95 ∧ x ≠ 120 := by
  rcases n.mem_body hx with hdigit | hother
  · refine ⟨?_, ?_, ?_⟩ <;> (rintro rfl; cases hdigit)
  · simp only [List.mem_cons, List.not_mem_nil, or_false] at hother
    rcases hother with rfl | rfl | rfl | rfl <;> decide

theorem elem_text (n : Numeral) : n.text.elem 95 = false := by
  rw [List.elem_eq_contains, List.contains_eq_mem, decide_eq_false_iff_not]
  unfold text
  split
  · rw [List.mem_cons, not_or]
    exact ⟨by decide, fun hbar => (n.ne_of_mem_body hbar).2.1 rfl⟩
  · exact fun hbar => (n.ne_of_mem_body hbar).2.1 rfl

theorem not_hex (n : Numeral) : (match n.body with
    | 48 :: x :: _ :: _ => decide (x = 120) || decide (x = 88)
    | _ => false) = false := by
  split
  next x _ _ heq =>
    obtain ⟨hlower, -, hupper⟩ := n.ne_of_mem_body (x := x) (by simp [heq])
    simp [hlower, hupper]
  next => rfl

/-- A numeral is read as the number nearest to what it spells. -/
theorem numeral?_text (n : Numeral) :
    numeral? n.text = Binary64.ofDecimal? n.negative n.coefficient n.scale := by
  unfold numeral?
  rw [sign_text]
  dsimp -zeta only
  extract_lets hex digits
  have hhex : hex = false := n.not_hex
  have hdigits : digits = n.body := if_neg (by simp [hhex])
  clear_value hex digits
  subst hhex hdigits
  simp only [Bool.false_eq_true, if_false]
  rw [mantissa_body, elem_text]
  dsimp only
  rw [scale, tail]
  cases n.exponent with
  | none => simp
  | some e => simp [Exponent.text, exponent?_text]

end Reading

end Numeral

def Bytes.IsNumeral (b : Bytes) : Prop := ∃ n : Numeral, n.text = b

theorem Bytes.head_ofNat (n : ℕ) : ofNat n = [48] ∨ (ofNat n).head? ≠ some 48 := by
  rcases Nat.eq_zero_or_pos n with rfl | hpos
  · exact .inl ofNat_zero
  · exact .inr (head?_ofNat_ne hpos.ne')

theorem Numeral.exists_ofInt (i : ℤ) :
    ∃ n : Numeral, n.text = Bytes.ofInt i ∧ n.exponent = none ∧ n.places = [] ∧
      n.negative = decide (i < 0) ∧ n.coefficient = i.natAbs := by
  have hnumeral : ∀ negative m, ∃ n : Numeral, n.negative = negative ∧ n.body = Bytes.ofNat m ∧
      n.exponent = none ∧ n.places = [] ∧ n.coefficient = m := by
    intro negative m
    refine ⟨⟨negative, Bytes.ofNat m, [], none, Bytes.areDigits_ofNat m, Bytes.ofNat_ne_nil m,
      Bytes.head_ofNat m, .nil⟩, rfl, List.append_nil _, rfl, rfl, ?_⟩
    exact (congrArg Bytes.natOfDigits (List.append_nil _)).trans (Bytes.natOfDigits_ofNat m)
  cases i with
  | ofNat m =>
      obtain ⟨n, hsign, hbody, hexponent, hplaces, hcoefficient⟩ := hnumeral false m
      exact ⟨n, by rw [text, hsign, hbody]; rfl, hexponent, hplaces, hsign, hcoefficient⟩
  | negSucc m =>
      obtain ⟨n, hsign, hbody, hexponent, hplaces, hcoefficient⟩ := hnumeral true (m + 1)
      have hnegative := hsign.trans (decide_eq_true (Int.negSucc_lt_zero m)).symm
      exact ⟨n, by rw [text, hsign, hbody]; rfl, hexponent, hplaces, hnegative, hcoefficient⟩

theorem Bytes.isNumeral_ofInt (i : ℤ) : (Bytes.ofInt i).IsNumeral := by
  obtain ⟨n, htext, -⟩ := Numeral.exists_ofInt i
  exact ⟨n, htext⟩

namespace Decimal

variable {d : Decimal}

section Positional

def before (d : Decimal) : Bytes :=
  match d.point with
  | .ofNat (k + 1) => (d.digits ++ List.replicate (k + 1 - d.digits.length) 48).take (k + 1)
  | _ => [48]

def after (d : Decimal) : Bytes :=
  match d.point with
  | .ofNat k => d.digits.drop k
  | .negSucc k => List.replicate (k + 1) 48 ++ d.digits

theorem positional_eq (d : Decimal) :
    d.positional = d.before ++ (if d.after = [] then [] else 46 :: d.after) := rfl

theorem before_of_pos {k : ℕ} (h : d.point = (k + 1 : ℕ)) :
    d.before = (d.digits ++ List.replicate (k + 1 - d.digits.length) 48).take (k + 1) := by
  rw [before, h]

theorem before_of_nonpos {k : ℕ} (h : d.point = -(k : ℤ)) : d.before = [48] := by
  unfold before
  split
  next j heq =>
    have hpos : 0 < Int.ofNat j.succ := Int.natCast_pos.mpr j.succ_pos
    omega
  next => rfl

theorem after_of_nonneg {k : ℕ} (h : d.point = k) : d.after = d.digits.drop k := by
  rw [after, h]

theorem after_of_nonpos {k : ℕ} (h : d.point = -(k : ℤ)) :
    d.after = List.replicate k 48 ++ d.digits := by
  cases k with
  | zero => exact after_of_nonneg h
  | succ k =>
      have hneg : d.point = Int.negSucc k := h
      rw [after, hneg]

/-- The point is after the first digit, or before or at it. -/
theorem point_cases (d : Decimal) :
    (∃ k : ℕ, d.point = (k + 1 : ℕ)) ∨ ∃ k : ℕ, d.point = -(k : ℤ) := by
  rcases lt_or_ge 0 d.point with hpos | hneg
  · exact .inl ⟨(d.point - 1).toNat, by omega⟩
  · exact .inr ⟨(-d.point).toNat, by omega⟩

theorem head?_before {k : ℕ} (h : d.point = (k + 1 : ℕ)) (hd : d.Proper) :
    d.before.head? = d.digits.head? := by
  obtain ⟨c, cs, hcs⟩ := List.exists_cons_of_ne_nil hd.ne_nil
  rw [before_of_pos h, hcs, List.cons_append, List.take_succ_cons, List.head?_cons, List.head?_cons]

theorem before_head (hd : d.Proper) : d.before = [48] ∨ d.before.head? ≠ some 48 := by
  rcases d.point_cases with ⟨k, h⟩ | ⟨k, h⟩
  · exact .inr (head?_before h hd ▸ hd.head)
  · exact .inl (before_of_nonpos h)

theorem before_ne_nil (hd : d.Proper) : d.before ≠ [] := by
  intro hnil
  rcases d.point_cases with ⟨k, h⟩ | ⟨k, h⟩
  · have hhead := head?_before h hd
    rw [hnil, List.head?_nil, eq_comm, List.head?_eq_none_iff] at hhead
    exact hd.ne_nil hhead
  · rw [before_of_nonpos h] at hnil
    cases hnil

theorem before_digits (hd : d.Proper) : d.before.AreDigits := by
  rcases d.point_cases with ⟨k, h⟩ | ⟨k, h⟩
  · rw [before_of_pos h]
    exact (hd.digits.append (.zeros _)).sublist (List.take_sublist ..)
  · rw [before_of_nonpos h]
    exact .zeros 1

theorem after_digits (hd : d.Proper) : d.after.AreDigits := by
  rcases d.point_cases with ⟨k, h⟩ | ⟨k, h⟩
  · rw [after_of_nonneg h]
    exact hd.digits.sublist (List.drop_sublist ..)
  · rw [after_of_nonpos h]
    exact (Bytes.AreDigits.zeros _).append hd.digits

/-- Zeros between the digits and the point, in front or behind, are the power of ten. -/
theorem before_after_value (d : Decimal) :
    ((d.before ++ d.after).natOfDigits : ℚ) * 10 ^ (-(d.after.length : ℤ)) = d.value := by
  rcases d.point_cases with ⟨k, h⟩ | ⟨k, h⟩
  · rw [before_of_pos h, after_of_nonneg h, value, h]
    rcases Nat.le_total (k + 1) d.digits.length with hle | hle
    · rw [List.take_append_of_le_length hle, List.take_append_drop, List.length_drop,
        Nat.cast_sub hle, neg_sub]
    · rw [List.drop_eq_nil_of_le hle, List.append_nil,
        List.take_of_length_le (by rw [List.length_append, List.length_replicate]; omega),
        Bytes.natOfDigits_append, Bytes.natOfDigits_zeros, List.length_replicate, List.length_nil,
        Nat.add_zero, Nat.cast_mul, cast_pow_eq_zpow, Nat.cast_zero, neg_zero, zpow_zero, mul_one,
        Nat.cast_sub hle, Nat.cast_ofNat]
  · rw [before_of_nonpos h, after_of_nonpos h, value, h]
    have hdigits : Bytes.natOfDigits ([48] ++ (List.replicate k 48 ++ d.digits)) =
        d.digits.natOfDigits := by
      rw [Bytes.natOfDigits_append, Bytes.natOfDigits_append, Bytes.natOfDigits_zeros,
        Nat.zero_mul, Nat.zero_add]
      exact (congrArg (· + _) (Nat.zero_mul _)).trans (Nat.zero_add _)
    rw [hdigits, List.length_append, List.length_replicate]
    congr 2
    push_cast
    ring

def positionalNumeral (negative : Bool) (d : Decimal) (hd : d.Proper) : Numeral where
  negative := negative
  whole := d.before
  places := d.after
  exponent := none
  whole_digits := before_digits hd
  whole_ne_nil := before_ne_nil hd
  whole_head := before_head hd
  places_digits := after_digits hd

theorem positionalNumeral_spec (negative : Bool) (hd : d.Proper) :
    (d.positionalNumeral negative hd).body = d.positional ∧
      ((d.positionalNumeral negative hd).coefficient : ℚ) *
        10 ^ (d.positionalNumeral negative hd).scale = d.value := by
  constructor
  · rw [Numeral.body, positional_eq]
    exact congrArg _ (List.append_nil _)
  · have hscale : (d.positionalNumeral negative hd).scale = -(d.after.length : ℤ) :=
      zero_sub _
    rw [hscale]
    exact before_after_value d

end Positional

section Scientific

def scientificExponent (width : ℕ) (hwidth : width ≤ 100) (d : Decimal) (hd : d.Proper) :
    Exponent where
  negative := d.point - 1 < 0
  digits := List.replicate (width - (Bytes.ofNat (d.point - 1).natAbs).length) 48 ++
    Bytes.ofNat (d.point - 1).natAbs
  areDigits := (Bytes.AreDigits.zeros _).append (Bytes.areDigits_ofNat _)
  ne_nil := List.append_ne_nil_of_right_ne_nil _ (Bytes.ofNat_ne_nil _)
  short := by
    have hshown : (Bytes.ofNat (d.point - 1).natAbs).length ≤ 3 := by
      have hpoint := hd.point
      rw [Bytes.length_ofNat, Nat.length_toDigits_le_iff (by decide) (by decide)]
      omega
    rw [List.length_append, List.length_replicate]
    omega
  small := by
    have hpoint := hd.point
    rw [Bytes.natOfDigits_append, Bytes.natOfDigits_zeros, Nat.zero_mul, Nat.zero_add,
      Bytes.natOfDigits_ofNat]
    omega

variable (width : ℕ) (hwidth : width ≤ 100)

theorem scientificExponent_value (hd : d.Proper) :
    (d.scientificExponent width hwidth hd).value = d.point - 1 := by
  have hdigits : (d.scientificExponent width hwidth hd).digits.natOfDigits =
      (d.point - 1).natAbs := by
    rw [scientificExponent, Bytes.natOfDigits_append, Bytes.natOfDigits_zeros, Nat.zero_mul,
      Nat.zero_add, Bytes.natOfDigits_ofNat]
  rw [Exponent.value, hdigits]
  unfold scientificExponent
  simp only [decide_eq_true_eq]
  split <;> omega

def scientificNumeral (width : ℕ) (hwidth : width ≤ 100) (negative : Bool) (d : Decimal)
    (hd : d.Proper) : Numeral where
  negative := negative
  whole := d.digits.take 1
  places := d.digits.drop 1
  exponent := some (d.scientificExponent width hwidth hd)
  whole_digits := hd.digits.sublist (List.take_sublist ..)
  whole_ne_nil := by simp [List.take_eq_nil_iff, hd.ne_nil]
  whole_head := .inr (by simpa [List.head?_take] using hd.head)
  places_digits := hd.digits.sublist (List.drop_sublist ..)

theorem scientificNumeral_spec (negative : Bool) (hd : d.Proper) :
    (d.scientificNumeral width hwidth negative hd).body = d.scientific width ∧
      ((d.scientificNumeral width hwidth negative hd).coefficient : ℚ) *
        10 ^ (d.scientificNumeral width hwidth negative hd).scale = d.value := by
  obtain ⟨c, cs, hcs⟩ := List.exists_cons_of_ne_nil hd.ne_nil
  constructor
  · unfold Numeral.body Numeral.fraction Numeral.tail scientificNumeral scientificExponent
      Exponent.text Exponent.sign scientific
    simp [hcs]
  · have hcoefficient : (d.scientificNumeral width hwidth negative hd).coefficient =
        d.digits.natOfDigits :=
      congrArg Bytes.natOfDigits (List.take_append_drop 1 d.digits)
    have hscale : (d.scientificNumeral width hwidth negative hd).scale =
        d.point - 1 - ((d.digits.drop 1).length : ℤ) :=
      congrArg (· - _) (scientificExponent_value width hwidth hd)
    rw [hcoefficient, hscale, value, hcs, List.drop_one, List.tail_cons, List.length_cons]
    congr 2
    push_cast
    ring

end Scientific

end Decimal

theorem Binary64.ofParts_self (x : Binary64) : ofParts x.negative x.magnitude = x := by
  have hbits := x.bits_toNat
  unfold ofParts
  rw [Nat.add_comm, ← hbits, Nat.toUInt64, UInt64.ofNat_toNat]

/-- The numeral has the sign of the number and a size that the number stands for. -/
structure Numeral.Spells (n : Numeral) (x : Binary64) : Prop where
  negative : n.negative = x.negative
  standsFor : x.StandsFor (n.coefficient * 10 ^ n.scale)

/-- A number is read back from a numeral that spells it. -/
theorem Numeral.Spells.numeral? {n : Numeral} {x : Binary64} (h : n.Spells x)
    (hx : x.isZero = false) (hfinite : x.isFinite = true) :
    Reading.numeral? n.text = some x := by
  rw [n.numeral?_text, h.negative, Decimal.ofDecimal?_of_standsFor hx hfinite h.standsFor,
    Binary64.ofParts_self]

namespace Binary64

variable {x : Binary64}

theorem exists_numeral_plain (hx : x.isZero = false) (hfinite : x.isFinite = true) :
    ∃ n : Numeral, n.text = x.plain ∧ n.exponent = none ∧ n.Spells x := by
  obtain ⟨hproper, hstandsFor⟩ := Decimal.shortest_spec hx hfinite
  obtain ⟨hbody, hvalue⟩ := Decimal.positionalNumeral_spec x.negative hproper
  refine ⟨_, ?_, rfl, rfl, hvalue ▸ hstandsFor⟩
  rw [Numeral.text, hbody]
  rfl

theorem exists_numeral_scientific {width : ℕ} (hwidth : width ≤ 100) (hx : x.isZero = false)
    (hfinite : x.isFinite = true) :
    ∃ n : Numeral, n.text = x.signed ((Decimal.shortest x).scientific width) ∧ n.Spells x := by
  obtain ⟨hproper, hstandsFor⟩ := Decimal.shortest_spec hx hfinite
  obtain ⟨hbody, hvalue⟩ := Decimal.scientificNumeral_spec width hwidth x.negative hproper
  refine ⟨_, ?_, rfl, hvalue ▸ hstandsFor⟩
  rw [Numeral.text, hbody]
  rfl

theorem exists_numeral_jsonText (hx : x.isZero = false) (hfinite : x.isFinite = true) :
    ∃ n : Numeral, n.text = x.jsonText ∧ n.Spells x := by
  unfold jsonText
  dsimp only
  split
  next =>
    obtain ⟨n, htext, -, hspells⟩ := exists_numeral_plain hx hfinite
    exact ⟨n, htext, hspells⟩
  next => exact exists_numeral_scientific (by decide) hx hfinite

theorem numeral?_jsonText (hx : x.isZero = false) (hfinite : x.isFinite = true) :
    Reading.numeral? x.jsonText = some x := by
  obtain ⟨n, htext, hspells⟩ := exists_numeral_jsonText hx hfinite
  rw [← htext, hspells.numeral? hx hfinite]

end Binary64

end Arbor
