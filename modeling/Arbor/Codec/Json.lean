import Arbor.Codec.Record
import Arbor.Json.Parser
import Arbor.Json.Printer
import Arbor.Number.Reading

/-! Trees in JSON: a record is an object with a member for each field that is not zero. -/
namespace Arbor

namespace Record

def member (f : Field) (present : Bool) (v : JsonValue) : List (Bytes × JsonValue) :=
  if present then [(Bytes.ofString f.name, v)] else []

mutual

def toJson : Record → JsonValue
  | null => .null
  | node kind p cs => .object <|
    (Bytes.ofString Field.kind.name, .string kind) ::
    member .int (p.int ≠ 0) (.number (Bytes.ofInt p.int.toInt)) ++
    member .float (!p.float.isZero) (.number p.float.jsonText) ++
    member .bool p.bool (.bool true) ++
    member .str (p.str ≠ []) (.string p.str) ++
    member .children (cs ≠ []) (.array (toJsons cs))

def toJsons : List Record → List JsonValue
  | [] => []
  | r :: rs => toJson r :: toJsons rs

end

mutual

def isFinite : Record → Bool
  | null => true
  | node _ p cs => p.float.isFinite && areFinite cs

def areFinite : List Record → Bool
  | [] => true
  | r :: rs => isFinite r && areFinite rs

end

def standing : List Record → Record
  | node k p cs :: _ => node k p cs
  | _ => blank

mutual

/-- The members of an object set in a record in order; none if one has the wrong type. -/
def setMembers (r : Record) : List (Bytes × JsonValue) → Option Record
  | [] => some r
  | (key, v) :: ms =>
    match Field.ofMapped? Utf8.foldAscii key, v with
    | none, _ => setMembers r ms
    | some .children, .null => setMembers (r.setChildren []) ms
    | some _, .null => setMembers r ms
    | some .kind, .string s => setMembers (r.setKind s) ms
    | some .int, .number n => (Reading.integer? n).bind fun i => setMembers (r.setInt i) ms
    | some .float, .number n => (Reading.numeral? n).bind fun x => setMembers (r.setFloat x) ms
    | some .bool, .bool b => setMembers (r.setBool b) ms
    | some .str, .string s => setMembers (r.setStr s) ms
    | some .children, .array vs =>
      (setItems r.children vs).bind fun cs => setMembers (r.setChildren cs) ms
    | some _, _ => none

def setItems (old : List Record) : List JsonValue → Option (List Record)
  | [] => some []
  | .null :: vs => (setItems old.tail vs).map (null :: ·)
  | .object ms :: vs => do
    let r ← setMembers (standing old) ms
    let rs ← setItems old.tail vs
    return r :: rs
  | _ :: _ => none

end

def ofJson? : JsonValue → Option Record
  | .null => some blank
  | .object ms => setMembers blank ms
  | _ => none

end Record

namespace Codec

/-- The layout for a number of blanks a level; none or less is one line. -/
def jsonLayout (indent : Int) : JsonValue.Layout :=
  if 0 < indent then .indented [] (Bytes.blanks indent.toNat) else .compact

/-- A line, or lines, of JSON. Laying out values too deeply nested fails. -/
def writeJson? (indent : Int) (r : Record) : Option Bytes :=
  if !r.isFinite then none
  else
    let v := r.toJson
    if 0 < indent && JsonValue.maxNesting < v.nesting then none
    else some (v.printOnto (jsonLayout indent) 0 [10])

def readJson? (b : Bytes) : Option Record := (JsonValue.parse? b).bind Record.ofJson?

end Codec

end Arbor
