import Arbor.Format
import Arbor.Tree.Basic

/-! A record is a node as the formats see it: a kind by name, all attributes and the children. -/
namespace Arbor

inductive Field where
  | kind
  | int
  | float
  | bool
  | str
  | children
  deriving DecidableEq, Repr

namespace Field

def all : List Field := [kind, int, float, bool, str, children]

def name : Field → String
  | kind => "kind"
  | int => "int"
  | float => "float"
  | bool => "bool"
  | str => "str"
  | children => "children"

def number : Field → Nat
  | kind => 1
  | int => 2
  | float => 3
  | bool => 4
  | str => 5
  | children => 6

def ofName? (b : Bytes) : Option Field := all.find? fun f => Bytes.ofString f.name = b

def ofNumber? (n : Int) : Option Field := all.find? fun f => (f.number : Int) = n

/-- The field with this name after a mapping of its characters. -/
def ofMapped? (map : Char → Char) (b : Bytes) : Option Field :=
  ofName? (Utf8.ofChars ((Utf8.chars b).map map))

end Field

inductive Record where
  | null
  | node (kind : Bytes) (payload : Payload) (children : List Record)
  deriving Inhabited, Repr

namespace Record

def blank : Record := node [] {} []

def setKind (k : Bytes) : Record → Record
  | node _ p cs => node k p cs
  | null => node k {} []

def mapPayload (f : Payload → Payload) : Record → Record
  | node k p cs => node k (f p) cs
  | null => node [] (f {}) []

def setChildren (cs : List Record) : Record → Record
  | node k p _ => node k p cs
  | null => node [] {} cs

def children : Record → List Record
  | node _ _ cs => cs
  | null => []

def setInt (v : Int64) : Record → Record := mapPayload fun p => { p with int := v }
def setFloat (v : Binary64) : Record → Record := mapPayload fun p => { p with float := v }
def setBool (v : Bool) : Record → Record := mapPayload fun p => { p with bool := v }
def setStr (v : Bytes) : Record → Record := mapPayload fun p => { p with str := v }

mutual

def ofTree : Tree → Record
  | .absent => null
  | .node h cs => node (Bytes.ofString h.kind.name) h.payload (ofTrees cs)

def ofTrees : List Tree → List Record
  | [] => []
  | t :: ts => ofTree t :: ofTrees ts

end

mutual

def toTreeAt (limit : Int) (depth : Nat) : Record → Except Fault Tree
  | null => .error .nullNode
  | node kind p cs => do
    Tree.checkDepth limit depth
    match Kind.ofName? kind with
    | none => .error (.noKindNamed kind)
    | some k =>
      let ts ← toTreesAt limit (depth + 1) cs
      Tree.ofKind k p ts

def toTreesAt (limit : Int) (depth : Nat) : List Record → Except Fault (List Tree)
  | [] => .ok []
  | r :: rs => do
    let t ← toTreeAt limit depth r
    let ts ← toTreesAt limit depth rs
    return t :: ts

end

def toTree (limit : Int) (r : Record) : Except Fault Tree := toTreeAt limit 0 r

end Record

inductive Objection where
  | notUtf8
  | character (c : Char)
  deriving DecidableEq, Repr

def isXmlChar (c : Char) : Bool :=
  let n := c.toNat
  n = 0x09 || n = 0x0A || n = 0x0D || (0x20 ≤ n && n ≤ 0xD7FF) || (0xE000 ≤ n && n ≤ 0xFFFD) ||
    (0x10000 ≤ n && n ≤ 0x10FFFF)

/-- What a format has against a text. The binary field format carries all bytes. -/
def Format.objection? (f : Option Format) (b : Bytes) : Option Objection :=
  if f = some .proto then none
  else if !Utf8.isValid b then some .notUtf8
  else if f = some .xml then
    ((Utf8.chars b).find? fun c => !isXmlChar c).map .character
  else none

namespace Record

mutual

/-- The first node in pre-order with a text that the format cannot carry. -/
def objection? (f : Option Format) : Record → Option (Bytes × Bytes × Objection)
  | null => none
  | node kind p cs =>
    match Format.objection? f p.str with
    | some o => some (kind, p.str, o)
    | none => objectionAll? f cs

def objectionAll? (f : Option Format) : List Record → Option (Bytes × Bytes × Objection)
  | [] => none
  | r :: rs =>
    match objection? f r with
    | some o => some o
    | none => objectionAll? f rs

end

end Record

end Arbor
