import Arbor.Text.Utf8
import Arbor.Number.Reading

/-! A number keeps its text: which texts are good depends on the type that is asked for. -/
namespace Arbor

inductive TomlValue where
  | string (text : Bytes)
  | bool (b : Bool)
  | integer (text : Bytes)
  | float (text : Bytes)
  /-- A date, a time or both. -/
  | moment (text : Bytes)
  | array (items : List TomlValue)
  | table (entries : List (List Bytes × TomlValue))
  deriving Inhabited, Repr

/-- A line of a document. Keys are lists of parts. -/
inductive TomlStatement where
  | assign (key : List Bytes) (value : TomlValue)
  | table (key : List Bytes)
  /-- One more table in an array of tables. -/
  | item (key : List Bytes)
  deriving Inhabited, Repr

namespace TomlValue

/-- The digits without underscores, each of which stands between two others. -/
def withoutUnderscores? : Bytes → Option Bytes
  | [] => some []
  | [95] => none
  | 95 :: 95 :: _ => none
  | 95 :: rest => withoutUnderscores? rest
  | c :: rest => (withoutUnderscores? rest).map (c :: ·)

/-- Digits of a base, of which the first is no underscore. -/
def based? (base : Nat) (digits : Bytes) : Option Int64 := do
  if digits.head? = some 95 then none
  else Reading.int64? (← Reading.digits? base (← withoutUnderscores? digits))

/-- An integer with an optional sign; of its digits only a single one may be a leading zero. -/
def decimal? (text : Bytes) : Option Int64 := do
  let digits := (Reading.sign text).2
  if digits.head? = some 95 then none
  else
    let clean ← withoutUnderscores? text
    match (Reading.sign clean).2 with
    | 48 :: _ :: _ => none
    | _ => Reading.integer? clean

def integer? (text : Bytes) : Option Int64 :=
  match text with
  | 48 :: 120 :: c :: rest => based? 16 (c :: rest)
  | 48 :: 111 :: c :: rest => based? 8 (c :: rest)
  | 48 :: 98 :: c :: rest => based? 2 (c :: rest)
  | _ => decimal? text

/-- Whether underscores and points of a floating point text stand between digits. -/
def floatMarksOk : UInt8 → Bytes → Bool
  | _, [] => true
  | _, [c] => c != 46 && c != 95
  | before, c :: next :: rest =>
    (if c = 46 || c = 95 then Bytes.isDigit before && Bytes.isDigit next else true) &&
      floatMarksOk c (next :: rest)

/-- The value of a floating point text, which may be an integer. -/
def float? (text : Bytes) : Option Binary64 :=
  if text = "+nan" ∨ text = "-nan" then some Binary64.nan
  else if !floatMarksOk 0 text then none
  else
    let clean := text.filter (· ≠ 95)
    match (Reading.sign clean).2 with
    | 48 :: c :: _ => if Bytes.isDigit c then none else Reading.float? clean
    | _ => Reading.float? clean

end TomlValue

end Arbor
