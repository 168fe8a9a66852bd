import Arbor.Json.Printer
import Arbor.Text.Quoted
import Arbor.Tree.Outline

/-! Filling never fails: a verb that does not fit its value is reported in place. -/
namespace Arbor

inductive Datum where
  | null
  | bool (b : Bool)
  | number (x : Binary64)
  | text (b : Bytes)
  | list (items : List Datum)
  | table (entries : List (Bytes × Datum))
  deriving Inhabited

namespace Datum

mutual

/-- The value as JSON, which has no infinite numbers; tables are in the order of their keys. -/
def json? : Datum → Option JsonValue
  | null => some .null
  | bool b => some (.bool b)
  | number x => if x.isNaN || x.isInfinite then none else some (.number x.jsonText)
  | text b => some (.string b)
  | list items => (jsonItems? items).map .array
  | table entries => (jsonEntries? entries).map fun ms => .object (JsonValue.ordered ms)

def jsonItems? : List Datum → Option (List JsonValue)
  | [] => some []
  | d :: ds => do return (← json? d) :: (← jsonItems? ds)

def jsonEntries? : List (Bytes × Datum) → Option (List (Bytes × JsonValue))
  | [] => some []
  | (k, d) :: ds => do return (k, ← json? d) :: (← jsonEntries? ds)

end

def putText (key text : Bytes) : List (Bytes × Bytes) → List (Bytes × Bytes)
  | [] => [(key, text)]
  | (k, t) :: rest =>
    if compareBytes key k = .gt then (k, t) :: putText key text rest else (key, text) :: (k, t) :: rest

mutual

def plain : Datum → Bytes
  | null => "<nil>"
  | bool b => boolWord b
  | number x => x.general
  | text b => b
  | list items => 91 :: (Bytes.join [32] (plainItems items) ++ [93])
  | table entries =>
    Bytes.ofString "map[" ++
      Bytes.join [32] ((plainEntries entries).map fun (k, t) => k ++ [58] ++ t) ++ [93]

def plainItems : List Datum → List Bytes
  | [] => []
  | d :: ds => plain d :: plainItems ds

def plainEntries : List (Bytes × Datum) → List (Bytes × Bytes)
  | [] => []
  | (k, d) :: ds => putText k (plain d) (plainEntries ds)

end

def typeName : Datum → Bytes
  | null => []
  | bool _ => "bool"
  | number _ => "float64"
  | text _ => "string"
  | list _ => "[]interface \x7b\x7d"
  | table _ => "map[string]interface \x7b\x7d"

def typed : Datum → Bytes
  | null => "<nil>"
  | d => d.typeName ++ [61] ++ d.plain

/-- A value in one line of JSON, or in words and a line end if JSON has no form for it. -/
def dump (d : Datum) : Bytes :=
  match d.json? with
  | some v => v.print .compact
  | none => d.plain ++ [10]

/-- Lists and tables as JSON on lines with a mark in front. -/
def laidOut (d : Datum) : Datum :=
  match d with
  | list _ | table _ =>
    match d.json? with
    | some v => text (v.print (.indented "   |" "  "))
    | none => text d.plain
  | d => d

/-- The text of a tree that is only known by its kind. -/
def unprintable (k : Kind) : Datum :=
  text (if k = .nullLiteral then "null" else "[unprintable *ast." ++ k.name ++ "]")

end Datum

namespace Message

def put (verb : Bytes) (d : Datum) : Bytes :=
  match verb, d with
  | [118], d => d.plain
  | [115], .text b => b
  | [113], .text b => Quoted.encode b
  | [116], .bool b => boolWord b
  | [103], .number x => x.general
  | verb, d => Bytes.ofString "%!" ++ verb ++ [40] ++ d.typed ++ [41]

/-- The values for which no verb is left. -/
def extra (ds : List Datum) : Bytes :=
  if ds = [] then []
  else Bytes.ofString "%!(EXTRA " ++ Bytes.join ", " (ds.map Datum.typed) ++ [41]

/-- The template from a place on, with values put in; `verb` tells whether a verb comes next. -/
def fillFrom : Bool → List Utf8.Piece → List Datum → Bytes
  | false, [], ds => extra ds
  | true, [], ds => Bytes.ofString "%!(NOVERB)" ++ extra ds
  | false, p :: ps, ds => if p.bytes = [37] then fillFrom true ps ds else p.bytes ++ fillFrom false ps ds
  | true, p :: ps, ds =>
    if p.bytes = [37] then 37 :: fillFrom false ps ds
    else match ds with
      | [] => Bytes.ofString "%!" ++ p.bytes ++ Bytes.ofString "(MISSING)" ++ fillFrom false ps []
      | d :: ds => put p.bytes d ++ fillFrom false ps ds

def fill (template : Bytes) (values : List Datum) : Bytes :=
  fillFrom false (Utf8.pieces template) values

/-- A template filled with values, lists and tables being laid out. -/
def render (template : Bytes) (values : List Datum) : Bytes :=
  fill template (values.map Datum.laidOut)

end Message

end Arbor
