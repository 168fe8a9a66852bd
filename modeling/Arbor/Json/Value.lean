import Arbor.Text.Utf8

/-! A number is its text and a string its bytes; a key may occur more than once. -/
namespace Arbor

inductive JsonValue where
  | null
  | bool (b : Bool)
  | number (text : Bytes)
  | string (text : Bytes)
  | array (items : List JsonValue)
  | object (members : List (Bytes × JsonValue))
  deriving Inhabited, Repr

namespace JsonValue

abbrev Member := Bytes × JsonValue

/-- Members with one added or replaced, in the order of keys. -/
def putMember (key : Bytes) (v : JsonValue) : List Member → List Member
  | [] => [(key, v)]
  | (k, w) :: ms =>
    match compareBytes key k with
    | .lt => (key, v) :: (k, w) :: ms
    | .eq => (key, v) :: ms
    | .gt => (k, w) :: putMember key v ms

/-- Members in the order of keys, the last of equal keys only. -/
def ordered (ms : List Member) : List Member := ms.foldl (fun acc m => putMember m.1 m.2 acc) []

mutual

def nesting : JsonValue → Nat
  | array items => nestingAll items + 1
  | object members => nestingMembers members + 1
  | _ => 0

def nestingAll : List JsonValue → Nat
  | [] => 0
  | v :: vs => max (nesting v) (nestingAll vs)

def nestingMembers : List (Bytes × JsonValue) → Nat
  | [] => 0
  | (_, v) :: ms => max (nesting v) (nestingMembers ms)

end

/-- The nesting that readers accept. -/
def maxNesting : Nat := 10000

end JsonValue

end Arbor
