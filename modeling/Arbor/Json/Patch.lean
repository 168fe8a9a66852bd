import Arbor.Json.Parser
import Arbor.Json.Printer
import Arbor.Number.Reading

/-! Patches compare and keep strings as they are written, not what they stand for. -/
namespace Arbor

namespace JsonValue

def member? (key : Bytes) (ms : List Member) : Option JsonValue :=
  (ms.reverse.find? fun m => m.1 = key).map (·.2)

/-- A place in a list of a length; negative ones count from its end. -/
def place? (length : Nat) (key : Bytes) : Option Nat := do
  let i := (← Reading.integer? key).toInt
  let i := if i < 0 then i + length else i
  if 0 ≤ i ∧ i < length then some i.toNat else none

/-- The value under a key of an object or an array; a missing member is null. -/
def get? (key : Bytes) : JsonValue → Option JsonValue
  | object ms => some ((member? key ms).getD null)
  | array vs => (place? vs.length key).bind fun i => vs[i]?
  | _ => none

/-- The value under a key changed, whether or not an object has the key. -/
def set? (container : JsonValue) (key : Bytes) (v : JsonValue) : Option JsonValue :=
  match container with
  | object ms => some (object (putMember key v (ordered ms)))
  | array vs => (place? vs.length key).map fun i => array (vs.set i v)
  | _ => none

/-- A value put under a key: an array's items from there on move, and a dash is its end. -/
def add? (container : JsonValue) (key : Bytes) (v : JsonValue) : Option JsonValue :=
  match container with
  | object ms => some (object (putMember key v (ordered ms)))
  | array vs =>
    if key = [45] then some (array (vs ++ [v]))
    else (place? (vs.length + 1) key).map fun i => array (vs.take i ++ v :: vs.drop i)
  | _ => none

def remove? (key : Bytes) : JsonValue → Option JsonValue
  | object ms =>
    if (member? key ms).isSome then some (object ((ordered ms).filter fun m => m.1 ≠ key)) else none
  | array vs => (place? vs.length key).map fun i => array (vs.eraseIdx i)
  | _ => none

def at? : List Bytes → JsonValue → Option JsonValue
  | [], v => some v
  | key :: keys, v => (v.get? key).bind (at? keys)

def modify? (f : JsonValue → Option JsonValue) : List Bytes → JsonValue → Option JsonValue
  | [], v => f v
  | key :: keys, v => do
    let below ← v.get? key
    let below ← modify? f keys below
    v.set? key below

mutual

/-- Whether two values are written alike, but for the order of members and blanks. -/
def sameText : JsonValue → JsonValue → Bool
  | null, null => true
  | bool a, bool b => a = b
  | number a, number b => a = b
  | string a, string b => a = b
  | array as, array bs => sameTexts as bs
  | object ms, object ns => (ordered ms).length = (ordered ns).length && sameMembers ms ns
  | _, _ => false

def sameTexts : List JsonValue → List JsonValue → Bool
  | [], [] => true
  | a :: as, b :: bs => sameText a b && sameTexts as bs
  | _, _ => false

/-- Whether each member that is the last of its key has its like. -/
def sameMembers : List Member → List Member → Bool
  | [], _ => true
  | (k, v) :: ms, ns =>
    (((ms.any fun m => m.1 = k) : Bool) || match member? k ns with
      | some w => sameText v w
      | none => false) && sameMembers ms ns

end

/-- The marks that are escaped when a value is written anew. -/
def escapeMarks : Bytes → Bytes
  | [] => []
  | 0xE2 :: 0x80 :: 0xA8 :: rest => Bytes.ofString "\\u2028" ++ escapeMarks rest
  | 0xE2 :: 0x80 :: 0xA9 :: rest => Bytes.ofString "\\u2029" ++ escapeMarks rest
  | c :: rest =>
    (if c = 60 || c = 62 || c = 38 then escapeUnit c.toNat else [c]) ++ escapeMarks rest

mutual

def copied : JsonValue → JsonValue
  | string written => string (escapeMarks written)
  | array vs => array (copiedAll vs)
  | object ms => object (copiedMembers ms)
  | v => v

def copiedAll : List JsonValue → List JsonValue
  | [] => []
  | v :: vs => copied v :: copiedAll vs

def copiedMembers : List Member → List Member
  | [] => []
  | (k, v) :: ms => (k, copied v) :: copiedMembers ms

end

mutual

def writtenLength : JsonValue → Nat
  | string written => (escapeMarks written).length + 2
  | array vs => writtenLengths vs + (vs.length - 1) + 2
  | object ms => writtenMembers ms + (ms.length - 1) + 2
  | v => (v.print .compact).length

def writtenLengths : List JsonValue → Nat
  | [] => 0
  | v :: vs => writtenLength v + writtenLengths vs

def writtenMembers : List Member → Nat
  | [] => 0
  | (k, v) :: ms => (quote k).length + 1 + writtenLength v + writtenMembers ms

end

end JsonValue

/-- A pointer as the keys on the way and the last one. -/
structure Pointer where
  parents : List Bytes
  key : Bytes

namespace Pointer

def unescape : Bytes → Bytes
  | [] => []
  | 126 :: 48 :: rest => 126 :: unescape rest
  | 126 :: 49 :: rest => 47 :: unescape rest
  | c :: rest => c :: unescape rest

/-- A pointer has a slash; what stands before the first one does not matter. -/
def ofText? (b : Bytes) : Option Pointer :=
  match (Bytes.split 47 b).tail.map unescape with
  | [] => none
  | p :: ps => some ⟨(p :: ps).dropLast, (p :: ps).getLastD []⟩

end Pointer

inductive PatchStep where
  | add (path : Pointer) (value : JsonValue)
  | remove (path : Pointer)
  | replace (path : Pointer) (value : JsonValue)
  | move (source path : Pointer)
  | copy (source path : Pointer)
  /-- Without a value nothing but a missing value passes. -/
  | test (path : Pointer) (value : JsonValue)

namespace PatchStep

open JsonValue

def textMember? (key : String) (ms : List Member) : Option Bytes :=
  match member? key ms with
  | some (.string written) => some (textOf written)
  | _ => none

def ofMembers? (ms : List Member) : Option PatchStep := do
  let op ← textMember? "op" ms
  let path := (textMember? "path" ms).bind Pointer.ofText?
  let source := (textMember? "from" ms).bind Pointer.ofText?
  let value := (member? "value" ms).getD .null
  match op.toStringD with
  | "add" => return add (← path) value
  | "remove" => return remove (← path)
  | "replace" => return replace (← path) value
  | "move" => return move (← source) (← path)
  | "copy" => return copy (← source) (← path)
  | "test" => return test (← path) value
  | _ => none

def valueAt? (p : Pointer) (doc : JsonValue) : Option JsonValue :=
  (doc.at? p.parents).bind (·.get? p.key)

def perform? (doc : JsonValue) : PatchStep → Option JsonValue
  | add p v => doc.modify? (·.add? p.key v) p.parents
  | remove p => doc.modify? (·.remove? p.key) p.parents
  | replace p v => doc.modify? (·.set? p.key v) p.parents
  | move s p => do
    let v ← valueAt? s doc
    let doc ← doc.modify? (·.remove? s.key) s.parents
    doc.modify? (·.add? p.key v) p.parents
  | copy s p => do
    let v ← valueAt? s doc
    doc.modify? (·.add? p.key v.copied) p.parents
  | test p v => do
    let found ← valueAt? p doc
    if found.sameText v then some doc else none

end PatchStep

/-- A patch: objects that describe operations, each read when its turn comes. -/
abbrev Patch := List (List JsonValue.Member)

namespace Patch

/-- The objects of a patch text; null is no operation, and a null object describes none. -/
def parse? (b : Bytes) : Option Patch :=
  match JsonValue.parseWith? .written b with
  | some .null => some []
  | some (.array vs) => vs.mapM fun
    | .object ms => some ms
    | .null => some []
    | _ => none
  | _ => none

def run? (patch : Patch) (doc : JsonValue) : Option JsonValue :=
  patch.foldlM (fun doc ms => (PatchStep.ofMembers? ms).bind (PatchStep.perform? doc)) doc

end Patch

end Arbor
