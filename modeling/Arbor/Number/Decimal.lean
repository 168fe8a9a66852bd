import Arbor.Text.Bytes
import Arbor.Number.Binary64

/-! The digits are the fewest that read back as the number and, of those, the nearest to it. -/
namespace Arbor

/-- The value `0.d₁d₂… * 10 ^ point`, where the last digit is not zero. -/
structure Decimal where
  digits : Bytes
  point : Int
  deriving DecidableEq, Repr

namespace Decimal

def digitCount (n : Nat) : Nat := (Nat.toDigits 10 n).length

/-- The `p` with `10 ^ (p - 1) ≤ num / den < 10 ^ p`. -/
def pointOf (num den : Nat) : Int :=
  if den ≤ num then digitCount (num / den)
  else
    let len := digitCount (den / num)
    if num * 10 ^ (len - 1) = den then 2 - (len : Int) else 1 - (len : Int)

/-- `coefficient * 10 ^ exponent` without trailing zeros. -/
def ofCoefficient (coefficient : Nat) (exponent : Int) : Decimal :=
  let digits := Bytes.ofNat coefficient
  ⟨(digits.reverse.dropWhile (· = 48)).reverse, digits.length + exponent⟩

/-- The multiple of `10 ^ exponent` nearest to a positive finite `x` among those that read back as `x`. -/
def onGrid? (x : Binary64) (exponent : Int) : Option Nat :=
  let (n, d) := x.ratio
  let (num, den) := match exponent with
    | .ofNat k => (n, d * 10 ^ k)
    | .negSucc k => (n * 10 ^ (k + 1), d)
  let m := x.significand
  let quarter := num / m
  let low := 4 * num - (if x.narrowBelow then 1 else 2) * quarter
  let high := 4 * num + 2 * quarter
  let inside (c : Nat) : Bool :=
    if m % 2 = 0 then low ≤ 4 * c * den && 4 * c * den ≤ high
    else low < 4 * c * den && 4 * c * den < high
  let c := num / den
  let r := num % den
  let below := inside c
  let above := r ≠ 0 && inside (c + 1)
  if below && above then
    some (if 2 * r < den ∨ (2 * r = den ∧ c % 2 = 0) then c else c + 1)
  else if below then some c
  else if above then some (c + 1)
  else none

/-- The first of the grids with `count`, `count + 1`, … digits that has a hit. -/
def search (x : Binary64) (point : Int) : Nat → Nat → Decimal
  | 0, count => ofCoefficient (x.ratio.1 / x.ratio.2) count
  | fuel + 1, count =>
    match onGrid? x (point - count) with
    | some c => ofCoefficient c (point - count)
    | none => search x point fuel (count + 1)

/-- The fewest digits that read back as the magnitude of a finite number; seventeen always do. -/
def shortest (x : Binary64) : Decimal :=
  if x.isZero then ⟨[], 0⟩
  else search x (pointOf x.ratio.1 x.ratio.2) 17 1

/-- Digit by digit: `d₁.d₂…e±nn`, the exponent with at least `width` digits. -/
def scientific (width : Nat) (d : Decimal) : Bytes :=
  let exponent := if d.digits = [] then 0 else d.point - 1
  let (first, rest) := match d.digits with
    | [] => (48, [])
    | c :: cs => (c, cs)
  let shown := Bytes.ofNat exponent.natAbs
  first :: ((if rest = [] then [] else 46 :: rest) ++
    [101, if exponent < 0 then 45 else 43] ++
    List.replicate (width - shown.length) 48 ++ shown)

/-- All places before and after the point, none after it if the value is integral. -/
def positional (d : Decimal) : Bytes :=
  let before := match d.point with
    | .ofNat (k + 1) => (d.digits ++ List.replicate (k + 1 - d.digits.length) 48).take (k + 1)
    | _ => [48]
  let after := match d.point with
    | .ofNat k => d.digits.drop k
    | .negSucc k => List.replicate (k + 1) 48 ++ d.digits
  before ++ (if after = [] then [] else 46 :: after)

end Decimal

namespace Binary64

def signed (x : Binary64) (body : Bytes) : Bytes := if x.negative then 45 :: body else body

/-- General layout: positional from `10 ^ -4` up to `10 ^ 6`, scientific outside, `NaN` and `±Inf`. -/
def general (x : Binary64) : Bytes :=
  if x.isNaN then "NaN"
  else if x.isInfinite then if x.negative then "-Inf" else "+Inf"
  else
    let d := Decimal.shortest x
    x.signed (if -4 ≤ d.point - 1 ∧ d.point - 1 < 6 then d.positional else d.scientific 2)

def plain (x : Binary64) : Bytes := x.signed (Decimal.shortest x).positional

/-- All digits of a finite integral number, without rounding. -/
def integralDigits (x : Binary64) : Bytes := x.signed (Bytes.ofNat (x.ratio.1 / x.ratio.2))

end Binary64

end Arbor
