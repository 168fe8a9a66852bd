import Arbor.Number.Decimal
import Arbor.Number.Reading

/-! The nodes of a document, and what a plain scalar stands for. -/
namespace Arbor

inductive YamlNode where
  /-- A scalar without quotes; nothing at all is an empty one. -/
  | plain (text : Bytes)
  | quoted (text : Bytes)
  | sequence (items : List YamlNode)
  | mapping (entries : List (Bytes × YamlNode))
  deriving Inhabited, Repr

inductive YamlScalar where
  | null
  | bool (b : Bool)
  /-- From the least of 64 signed bits to the greatest of 64 unsigned bits. -/
  | integer (n : Int)
  | float (x : Binary64)
  | text (t : Bytes)
  deriving DecidableEq, Repr

namespace YamlScalar

def isWord (t : Bytes) (words : List String) : Bool := words.any fun w => Bytes.ofString w = t

/-- An integer of at most 64 bits, of either kind. -/
def bounded? (neg : Bool) (n : Nat) : Option YamlScalar :=
  if neg then if n ≤ 2 ^ 63 then some (integer (-(n : Int))) else none
  else if n < 2 ^ 64 then some (integer n) else none

/-- The number of a text: with a base mark, octal after a zero, with one point, or decimal. -/
def number? (t : Bytes) : Option YamlScalar :=
  if t.head? = some 95 then none
  else
    let neg := t.head? = some 45
    let unsigned := match t with
      | 43 :: rest => rest
      | _ => t
    let unsigned := match unsigned with
      | 45 :: rest => rest
      | _ => unsigned
    let digits := unsigned.filter (· ≠ 95)
    let points := t.count 46
    match digits with
    | 48 :: 120 :: rest => (Reading.digits? 16 rest).bind (bounded? neg)
    | 48 :: 111 :: rest => (Reading.digits? 8 rest).bind (bounded? neg)
    | 48 :: 98 :: rest => (Reading.digits? 2 rest).bind (bounded? neg)
    | _ =>
      if points = 1 then
        (Reading.numeral? (if neg then 45 :: digits else digits)).map float
      else if points ≠ 0 then none
      else if digits.head? = some 48 && 1 < digits.length then
        (Reading.digits? 8 digits).bind (bounded? neg)
      else (Reading.digits? 10 digits).bind (bounded? neg)

def ofPlain (t : Bytes) : YamlScalar :=
  if isWord t ["", "~", "null", "Null", "NULL"] then null
  else if isWord t ["true", "True", "TRUE"] then bool true
  else if isWord t ["false", "False", "FALSE"] then bool false
  else if isWord t [".nan", ".NaN", ".NAN"] then float .nan
  else if isWord t [".inf", ".Inf", ".INF"] then float (.infinity false)
  else if isWord t ["-.inf", "-.Inf", "-.INF"] then float (.infinity true)
  else (number? t).getD (text t)

/-- The text of a scalar; null has none. -/
def asText : YamlScalar → Option Bytes
  | null => none
  | bool b => some (if b then "true" else "false")
  | integer n => some (Bytes.ofInt n)
  | float x => some x.general
  | text t => some t

end YamlScalar

end Arbor
