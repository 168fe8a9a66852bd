import Arbor.Number.Power
import Arbor.Text.Bytes

/-! A duration is a sign and numbers with units, such as `1h30m`, counted in nanoseconds. -/
namespace Arbor

inductive DurationError where
  | invalid (text : Bytes)
  | noUnit (text : Bytes)
  | unknownUnit (unit text : Bytes)
  deriving DecidableEq, Repr

namespace Duration

def quote (b : Bytes) : Bytes :=
  34 :: (b.flatMap (fun c =>
    if c < 32 || 128 ≤ c then 92 :: 120 :: Bytes.hexFixed Bytes.hexDigit 2 c.toNat
    else if c = 34 || c = 92 then [92, c]
    else [c]) ++ [34])

def unit? (b : Bytes) : Option Nat :=
  match b.toStringD with
  | "ns" => some 1
  | "us" | "\u00b5s" | "\u03bcs" => some 1000
  | "ms" => some 1000000
  | "s" => some 1000000000
  | "m" => some 60000000000
  | "h" => some 3600000000000
  | _ => none

def bound : Nat := 2 ^ 63

def isMark (c : UInt8) : Bool := c = 46 || Bytes.isDigit c

/-- The digits after a point, and what follows them; none if there is no point. -/
def fraction (b : Bytes) : Bytes × Bytes :=
  match b with
  | 46 :: rest => rest.span Bytes.isDigit
  | _ => ([], b)

/-- The sum of at most `fuel` numbers with units, on top of `total`. -/
def sum (text : Bytes) (total : Nat) : Nat → Bytes → Except DurationError Nat
  | _, [] => .ok total
  | 0, _ => .error (.invalid text)
  | fuel + 1, b =>
    let whole := b.takeWhile Bytes.isDigit
    let (part, rest) := fraction (b.drop whole.length)
    let value := Bytes.natOfDigits whole
    if (whole = [] ∧ part = []) ∨ bound < value then .error (.invalid text)
    else
      let name := rest.takeWhile fun c => !isMark c
      if name = [] then .error (.noUnit text)
      else match unit? name with
        | none => .error (.unknownUnit name text)
        | some unit =>
          let count := value * unit + Bytes.natOfDigits part * unit / 10 ^ part.length
          if bound / unit < value ∨ bound < count ∨ bound < total + count then .error (.invalid text)
          else sum text (total + count) fuel (rest.drop name.length)

def parse (text : Bytes) : Except DurationError Int :=
  let (negative, b) := match text with
    | 45 :: rest => (true, rest)
    | 43 :: rest => (false, rest)
    | b => (false, b)
  if b = [48] then .ok 0
  else if b = [] then .error (.invalid text)
  else do
    let n ← sum text 0 b.length b
    if negative then return -n
    else if n < bound then return n
    else throw (.invalid text)

end Duration

def DurationError.message : DurationError → Bytes
  | invalid t => Bytes.ofString "time: invalid duration " ++ Duration.quote t
  | noUnit t => Bytes.ofString "time: missing unit in duration " ++ Duration.quote t
  | unknownUnit u t =>
    Bytes.ofString "time: unknown unit " ++ Duration.quote u ++ Bytes.ofString " in duration " ++
      Duration.quote t

end Arbor
