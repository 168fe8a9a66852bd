import Arbor.Number.Binary64
import Arbor.Number.Decimal
import Arbor.Number.Reading
import Arbor.Tree.Order

/-! Numbers of both kinds mix freely: an integer beside a floating point number counts as one. -/
namespace Arbor.Query

inductive Value where
  | nil
  | bool (b : Bool)
  | integer (n : Int64)
  | float (x : Binary64)
  | text (b : Bytes)
  | array (items : List Value)
  deriving Inhabited, Repr

namespace Value

def float? : Value → Option Float
  | integer n => some (Binary64.ofInt n.toInt).toFloat
  | float x => some x.toFloat
  | _ => none

mutual

/-- Equality: numbers by value, values of different types differ. -/
def same : Value → Value → Bool
  | nil, nil => true
  | bool a, bool b => a = b
  | integer a, integer b => a = b
  | text a, text b => a = b
  | array as, array bs => sameAll as bs
  | integer a, float b => (Binary64.ofInt a.toInt).toFloat == b.toFloat
  | float a, integer b => a.toFloat == (Binary64.ofInt b.toInt).toFloat
  | float a, float b => a.toFloat == b.toFloat
  | _, _ => false

def sameAll : List Value → List Value → Bool
  | [], [] => true
  | a :: as, b :: bs => same a b && sameAll as bs
  | _, _ => false

end

def less? : Value → Value → Option Bool
  | integer a, integer b => some (a < b)
  | text a, text b => some (compareBytes a b = .lt)
  | a, b => do return (← a.float?) < (← b.float?)

def atMost? : Value → Value → Option Bool
  | integer a, integer b => some (a ≤ b)
  | text a, text b => some (compareBytes a b ≠ .gt)
  | a, b => do return (← a.float?) ≤ (← b.float?)

/-- An operation on numbers: on integers if both are, else on floating point numbers. -/
def arithmetic? (onInt : Int64 → Int64 → Int64) (onFloat : Float → Float → Float) :
    Value → Value → Option Value
  | integer a, integer b => some (integer (onInt a b))
  | a, b => do return float (Binary64.ofFloat (onFloat (← a.float?) (← b.float?)))

def add? : Value → Value → Option Value
  | text a, text b => some (text (a ++ b))
  | a, b => arithmetic? (· + ·) (· + ·) a b

/-- Division is of floating point numbers always. -/
def divide? (a b : Value) : Option Value := do
  return float (Binary64.ofFloat ((← a.float?) / (← b.float?)))

/-- The remainder has the sign of the dividend; there is none by zero. -/
def remainder? : Value → Value → Option Value
  | integer a, integer b =>
    if b = 0 then none else some (integer (Int64.ofInt (a.toInt.tmod b.toInt)))
  | _, _ => none

def negate? : Value → Option Value
  | integer n => some (integer (-n))
  | float x => some (float (Binary64.ofFloat (-x.toFloat)))
  | _ => none

def bound? : Value → Option Int
  | integer n => some n.toInt
  | float x =>
    if x.isNaN || x.isInfinite then none
    else some (if x.negative then -((x.ratio.1 / x.ratio.2 : Nat) : Int) else (x.ratio.1 / x.ratio.2 : Nat))
  | text b => (Reading.integer? b).map Int64.toInt
  | _ => none

/-- Ranges this long are refused. -/
def maxRange : Int := 1000000

/-- The integers from one bound to another, both included. -/
def range? (a b : Value) : Option Value := do
  let low ← a.bound?
  let high ← b.bound?
  let size := high - low + 1
  if maxRange ≤ size then none
  else some (array ((List.range size.toNat).map fun (i : Nat) => integer (Int64.ofInt (low + i))))

/-- Whether a value is among the items of an array; nothing is in nil. -/
def isIn? (v : Value) : Value → Option Bool
  | nil => some false
  | array items => some (items.any fun w => same w v)
  | _ => none

/-- A test of two texts, which fails quietly on nil. -/
def texts? (test : Bytes → Bytes → Option Bool) : Value → Value → Option Bool
  | nil, _ => some false
  | _, nil => some false
  | text a, text b => test a b
  | _, _ => none

def length? : Value → Option Value
  | text b => some (integer (Int64.ofNat (Utf8.pieces b).length))
  | array items => some (integer (Int64.ofNat items.length))
  | _ => none

def asBool? : Value → Option Bool
  | bool b => some b
  | _ => none

end Value

end Arbor.Query
