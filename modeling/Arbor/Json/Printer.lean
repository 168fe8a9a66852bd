import Arbor.Json.Value
import Arbor.Number.Decimal

/-! Values are written on one line or with one item a line. -/
namespace Arbor.JsonValue

inductive Layout where
  | compact
  /-- A line for each item: the lead, then one step for each level. -/
  | indented (lead step : Bytes)

def escapeUnit (n : Nat) : Bytes := 92 :: 117 :: Bytes.hexFixed Bytes.hexDigit 4 n

def escapeChar (c : Char) : Bytes :=
  match c with
  | '"' => [92, 34]
  | '\\' => [92, 92]
  | '\x08' => [92, 98]
  | '\x0c' => [92, 102]
  | '\n' => [92, 110]
  | '\r' => [92, 114]
  | '\t' => [92, 116]
  | '<' | '>' | '&' | '\u2028' | '\u2029' => escapeUnit c.toNat
  | c => if c.toNat < 0x20 then escapeUnit c.toNat else Utf8.encode c

def quote (text : Bytes) : Bytes := 34 :: ((Utf8.chars text).flatMap escapeChar ++ [34])

namespace Layout

/-- What comes before an item or a closing bracket at a level. -/
def newline (layout : Layout) (level : Nat) : Bytes :=
  match layout with
  | compact => []
  | indented lead step => 10 :: (lead ++ (List.replicate level step).flatten)

def colon : Layout → Bytes
  | compact => [58]
  | indented _ _ => [58, 32]

end Layout

mutual

/-- The text of a value at a level, in front of `rest`. -/
def printOnto (layout : Layout) (level : Nat) (rest : Bytes) : JsonValue → Bytes
  | null => Bytes.ofString "null" ++ rest
  | bool true => Bytes.ofString "true" ++ rest
  | bool false => Bytes.ofString "false" ++ rest
  | number text => text ++ rest
  | string text => quote text ++ rest
  | array [] => 91 :: 93 :: rest
  | array (v :: vs) =>
    91 :: (layout.newline (level + 1) ++ printOnto layout (level + 1)
      (printItemsOnto layout (level + 1) (layout.newline level ++ 93 :: rest) vs) v)
  | object [] => 123 :: 125 :: rest
  | object ((k, v) :: ms) =>
    123 :: (layout.newline (level + 1) ++ quote k ++ layout.colon ++ printOnto layout (level + 1)
      (printMembersOnto layout (level + 1) (layout.newline level ++ 125 :: rest) ms) v)

def printItemsOnto (layout : Layout) (level : Nat) (rest : Bytes) : List JsonValue → Bytes
  | [] => rest
  | v :: vs =>
    44 :: (layout.newline level ++
      printOnto layout level (printItemsOnto layout level rest vs) v)

def printMembersOnto (layout : Layout) (level : Nat) (rest : Bytes) :
    List (Bytes × JsonValue) → Bytes
  | [] => rest
  | (k, v) :: ms =>
    44 :: (layout.newline level ++ quote k ++ layout.colon ++
      printOnto layout level (printMembersOnto layout level rest ms) v)

end

def print (layout : Layout) (v : JsonValue) : Bytes := printOnto layout 0 [] v

end Arbor.JsonValue

namespace Arbor.Binary64

/-- A finite number in JSON: positional from `10 ^ -6` up to `10 ^ 21`, else with a short exponent. -/
def jsonText (x : Binary64) : Bytes :=
  let d := Decimal.shortest x
  x.signed (if d.digits = [] ∨ (-6 ≤ d.point - 1 ∧ d.point - 1 < 21) then d.positional
    else d.scientific 1)

end Arbor.Binary64
