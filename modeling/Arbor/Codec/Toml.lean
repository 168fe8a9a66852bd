import Arbor.Codec.Record
import Arbor.Number.Decimal
import Arbor.Toml.Parser
import Arbor.Toml.Scope

/-! Trees in TOML: a record is a table, and its children are an array of tables. -/
namespace Arbor

namespace Toml

/-- Whether a text can stand between single quotes. -/
def isLiteral (b : Bytes) : Bool := b.all fun c => c != 39 && !isControl c

def escapeByte (c : UInt8) : Bytes :=
  match c with
  | 8 => "\\b"
  | 9 => "\\t"
  | 10 => "\\n"
  | 12 => "\\f"
  | 13 => "\\r"
  | 34 => "\\\""
  | 92 => "\\\\"
  | c =>
    if isControl c then Bytes.ofString "\\u" ++ Bytes.hexFixed Bytes.upperHexDigit 4 c.toNat else [c]

/-- A text in quotes: single ones if it can stand between them. -/
def writeText (b : Bytes) : Bytes :=
  if isLiteral b then 39 :: (b ++ [39]) else 34 :: (b.flatMap escapeByte ++ [34])

def writeFloat (x : Binary64) : Bytes :=
  if x.isNaN then "nan"
  else if x.isInfinite then if x.negative then "-inf" else "inf"
  else if x.isIntegral then x.integralDigits ++ Bytes.ofString ".0"
  else x.plain

end Toml

namespace Record

def tomlEntry (lead : Bytes) (f : Field) (present : Bool) (value : Bytes) : Bytes :=
  if present then lead ++ Bytes.ofString f.name ++ Bytes.ofString " = " ++ value ++ [10] else []

def tomlFields (lead : Bytes) (kind : Bytes) (p : Payload) : Bytes :=
  tomlEntry lead .kind true (Toml.writeText kind) ++
    tomlEntry lead .int (p.int ≠ 0) (Bytes.ofInt p.int.toInt) ++
    tomlEntry lead .float (!p.float.isZero) (Toml.writeFloat p.float) ++
    tomlEntry lead .bool p.bool "true" ++
    tomlEntry lead .str (p.str ≠ []) (Toml.writeText p.str)

def tomlHeader (indent level : Nat) : Bytes :=
  10 :: (Bytes.blanks (indent * (level - 1)) ++ [91, 91] ++
    Bytes.join [46] (List.replicate level (Bytes.ofString Field.children.name)) ++ [93, 93, 10])

mutual

def tomlOnto (indent level : Nat) (rest : Bytes) : Record → Bytes
  | null => rest
  | node kind p cs =>
    tomlFields (Bytes.blanks (indent * level)) kind p ++ tomlAllOnto indent (level + 1) rest cs

def tomlAllOnto (indent level : Nat) (rest : Bytes) : List Record → Bytes
  | [] => rest
  | r :: rs =>
    tomlHeader indent level ++ tomlOnto indent level (tomlAllOnto indent level rest rs) r

end

def tomlField? (name : Bytes) : Option Field := Field.ofMapped? Utf8.lowerAscii name

def present : Record → Record
  | null => blank
  | r => r

mutual

/-- A key given a value in a record; none if it does not fit. -/
def setToml (r : Record) (key : List Bytes) (v : TomlValue) : Option Record :=
  match key with
  | [] => none
  | name :: below =>
    match tomlField? name, v with
    | none, _ => some r
    | some f, v =>
      if below ≠ [] then none
      else match f, v with
        | .kind, .string s => some (r.setKind s)
        | .int, .integer t => (TomlValue.integer? t).map (r.setInt ·)
        | .float, .integer t => (TomlValue.float? t).map (r.setFloat ·)
        | .float, .float t => (TomlValue.float? t).map (r.setFloat ·)
        | .bool, .bool b => some (r.setBool b)
        | .str, .string s => some (r.setStr s)
        | .children, .array items => (ofTomls? items).map (r.setChildren ·)
        | _, _ => none

def ofTomls? : List TomlValue → Option (List Record)
  | [] => some []
  | .table entries :: vs => do
    let r ← setTomls blank entries
    let rs ← ofTomls? vs
    return r :: rs
  | _ :: _ => none

def setTomls (r : Record) : List (List Bytes × TomlValue) → Option Record
  | [] => some r
  | (key, v) :: rest => (setToml r key v).bind fun r => setTomls r rest

end

/-- Changes the record that is reached by taking the last child `n` times. -/
def modifyLast (f : Record → Option Record) : Nat → Record → Option Record
  | 0, r => f r
  | n + 1, r =>
    match r.present with
    | node k p cs =>
      match cs.getLast? with
      | some c => (modifyLast f n c).map fun c => node k p (cs.dropLast ++ [c])
      | none => none
    | null => none

end Record

namespace Toml

/-- What the entries after a header belong to. -/
inductive Place where
  /-- The record reached by taking the last child so many times. -/
  | record (depth : Nat)
  /-- A table that means nothing to a record. -/
  | unknown
  /-- A field that holds no table. -/
  | scalar
  deriving DecidableEq, Repr

/-- How many parts of a header name children, and what the first other part names. -/
def childrenParts : List Bytes → Nat × Option (Option Field × Bool)
  | [] => (0, none)
  | name :: rest =>
    match Record.tomlField? name with
    | some .children => let (n, other) := childrenParts rest; (n + 1, other)
    | f => (0, some (f, rest = []))

structure Reader where
  scope : Scope := .empty
  /-- The header in force. -/
  header : List Bytes := []
  place : Place := .record 0
  record : Record := .blank

namespace Reader

def enter (r : Reader) (header : List Bytes) (scope : Scope) : Option Reader := do
  let (n, other) := childrenParts header
  let record ← r.record.modifyLast (fun c => some (if other.isSome then c.present else c)) n
  let place ← match other with
    | none => some (.record n)
    | some (none, _) => some .unknown
    | some (some _, true) => some .scalar
    | some (some _, false) => none
  return { scope, header, place, record }

def append (r : Reader) (header : List Bytes) (scope : Scope) : Option Reader :=
  match childrenParts header with
  | (n + 1, none) => do
    let record ← r.record.modifyLast
      (fun c => some (c.present.setChildren (c.children ++ [.null]))) n
    return { scope, header, place := .record (n + 1), record }
  | (n, some (none, _)) => do
    let record ← r.record.modifyLast (fun c => some c.present) n
    return { scope, header, place := .unknown, record }
  | _ => none

/-- The scope when a header ends the table in force. -/
def closed (r : Reader) : Option Scope :=
  r.scope.alterAt (fun s => some (s.setNames (Scope.closeNames s.names))) r.header

def step (r : Reader) : TomlStatement → Option Reader
  | .table key => do r.enter key (← (← r.closed).openTable key)
  | .item key => do r.append key (← (← r.closed).openItem key)
  | .assign key v =>
    match r.place with
    | .unknown => some r
    | .scalar => none
    | .record n => do
      let scope ← r.scope.alterAt (Scope.define key) r.header
      if !singleValued v then none
      else
        let record ← r.record.modifyLast (fun c => c.present.setToml key v) n
        return { r with scope, record }

end Reader

end Toml

namespace Codec

def writeToml (indent : Int) (r : Record) : Bytes := r.tomlOnto indent.toNat 0 []

def readToml? (b : Bytes) : Option Record := do
  let ss ← Toml.statements? b
  let r ← ss.foldlM Toml.Reader.step {}
  return r.record

end Codec

end Arbor
