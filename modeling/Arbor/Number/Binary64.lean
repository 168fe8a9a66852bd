import Arbor.Number.Power

/-! A floating point number is its bit pattern, so no rounding enters. -/
namespace Arbor

structure Binary64 where
  bits : UInt64
  deriving DecidableEq, Repr, Inhabited

namespace Binary64

def zero : Binary64 := ⟨0⟩

def nan : Binary64 := ⟨0x7FF8000000000001⟩

def negative (x : Binary64) : Bool := 0x8000000000000000 ≤ x.bits

/-- The pattern without its sign; magnitudes are ordered like their patterns. -/
def magnitude (x : Binary64) : Nat := x.bits.toNat % 2 ^ 63

/-- The pattern of infinity; greater magnitudes are NaNs. -/
def infinityPattern : Nat := 0x7FF0000000000000

def isNaN (x : Binary64) : Bool := infinityPattern < x.magnitude
def isInfinite (x : Binary64) : Bool := x.magnitude = infinityPattern
def isFinite (x : Binary64) : Bool := x.magnitude < infinityPattern
def isZero (x : Binary64) : Bool := x.magnitude = 0

def ofParts (negative : Bool) (magnitude : Nat) : Binary64 :=
  ⟨(magnitude + if negative then 2 ^ 63 else 0).toUInt64⟩

def infinity (negative : Bool) : Binary64 := ofParts negative infinityPattern

/-- The place of a number in the order: NaNs are one value below all others, both zeros are one. -/
def rank (x : Binary64) : Int :=
  if x.isNaN then -(2 ^ 63)
  else if x.negative then -(x.magnitude : Int)
  else x.magnitude

protected def compare (x y : Binary64) : Ordering := Ord.compare x.rank y.rank

/-- One pattern for all numbers of the same rank. -/
def canonicalBits (x : Binary64) : UInt64 :=
  if x.isNaN then nan.bits else if x.isZero then 0 else x.bits

def exponentField (x : Binary64) : Nat := x.magnitude / 2 ^ 52
def fraction (x : Binary64) : Nat := x.magnitude % 2 ^ 52

/-- A finite magnitude is `significand * 2 ^ power`. -/
def significand (x : Binary64) : Nat :=
  if x.exponentField = 0 then x.fraction else 2 ^ 52 + x.fraction

def power (x : Binary64) : Int :=
  if x.exponentField = 0 then -1074 else (x.exponentField : Int) - 1075

/-- Whether the spacing below a finite magnitude is half the spacing above. -/
def narrowBelow (x : Binary64) : Bool := x.fraction = 0 && 1 < x.exponentField

def ratio (x : Binary64) : Nat × Nat :=
  match x.power with
  | .ofNat p => (x.significand * 2 ^ p, 1)
  | .negSucc p => (x.significand, 2 ^ (p + 1))

def isIntegral (x : Binary64) : Bool := x.isFinite && x.ratio.1 % x.ratio.2 = 0

/-- `num / den` rounded to the nearest multiple of `1`, a half going to the even neighbour. -/
def roundHalfEven (num den : Nat) : Nat :=
  let q := num / den
  let r := num % den
  if den < 2 * r ∨ (2 * r = den ∧ q % 2 = 1) then q + 1 else q

/-- The exponent of the greatest power of two that is at most `num / den`. -/
def floorLog2 (num den : Nat) : Int :=
  let guess : Int := (num.log2 : Int) - den.log2
  let reached : Bool := match guess with
    | .ofNat k => den * 2 ^ k ≤ num
    | .negSucc k => den ≤ num * 2 ^ (k + 1)
  if reached then guess else guess - 1

/-- The number nearest to `num / den`, a half going to the even pattern; none if it is too large. -/
def ofRatio? (negative : Bool) (num den : Nat) : Option Binary64 :=
  if num = 0 then some (ofParts negative 0)
  else
    let power := max (floorLog2 num den - 52) (-1074)
    let m := match power with
      | .ofNat k => roundHalfEven num (den * 2 ^ k)
      | .negSucc k => roundHalfEven (num * 2 ^ (k + 1)) den
    let pattern := if m < 2 ^ 52 then m else (power + 1075).toNat * 2 ^ 52 + (m - 2 ^ 52)
    if pattern < infinityPattern then some (ofParts negative pattern) else none

/-- The number nearest to `coefficient * 10 ^ exponent`; none if it is too large. -/
def ofDecimal? (negative : Bool) (coefficient : Nat) (exponent : Int) : Option Binary64 :=
  let size : Int := (Nat.toDigits 10 coefficient).length
  if coefficient = 0 ∨ size + exponent < -400 then some (ofParts negative 0)
  else if 400 < size + exponent then none
  else match exponent with
    | .ofNat k => ofRatio? negative (coefficient * 10 ^ k) 1
    | .negSucc k => ofRatio? negative coefficient (10 ^ (k + 1))

def ofInt (n : Int) : Binary64 :=
  (ofRatio? (n < 0) n.natAbs 1).getD (infinity (n < 0))

def toFloat (x : Binary64) : Float := Float.ofBits x.bits

def ofFloat (f : Float) : Binary64 := ⟨f.toBits⟩

end Binary64

end Arbor
