import Arbor.Toml.Value

/-! A name may be given a value once, and a table opened once. -/
namespace Arbor.Toml

inductive Role where
  | value
  | table
  | array
  deriving DecidableEq, Repr

/-- A name's role, whether it was named in full, whether a dotted key made it, and what is below. -/
inductive Scope where
  | mk (role : Role) (closed dotted : Bool) (names : List (Bytes × Scope))
  deriving Repr

namespace Scope

def role : Scope → Role
  | mk r _ _ _ => r

def closed : Scope → Bool
  | mk _ c _ _ => c

def names : Scope → List (Bytes × Scope)
  | mk _ _ _ ns => ns

def setNames (names : List (Bytes × Scope)) : Scope → Scope
  | mk r c d _ => mk r c d names

def empty : Scope := mk .table false false []

/-- Changes what a name stands for, from nothing if it is new. -/
def alterName (name : Bytes) (f : Option Scope → Option Scope) :
    List (Bytes × Scope) → Option (List (Bytes × Scope))
  | [] => (f none).map fun s => [(name, s)]
  | (n, s) :: rest =>
    if n = name then (f (some s)).map fun s => (n, s) :: rest
    else (alterName name f rest).map ((n, s) :: ·)

def alter (name : Bytes) (f : Option Scope → Option Scope) (s : Scope) : Option Scope :=
  (alterName name f s.names).map s.setNames

mutual

/-- Closes every table that dotted keys made. -/
def close : Scope → Scope
  | mk r c d names => mk r (c || d) false (closeNames names)

def closeNames : List (Bytes × Scope) → List (Bytes × Scope)
  | [] => []
  | (n, s) :: rest => (n, close s) :: closeNames rest

end

/-- The scope at a path changed; the names on the way are there. -/
def alterAt (f : Scope → Option Scope) : List Bytes → Scope → Option Scope
  | [], s => f s
  | name :: path, s => s.alter name fun
    | none => none
    | some below => alterAt f path below

/-- A header's path walked down to its last part, which `last` settles. -/
def descend (last : Option Scope → Option Scope) : List Bytes → Scope → Option Scope
  | [], s => some s
  | [name], s => s.alter name last
  | name :: path, s => s.alter name fun
    | none => descend last path empty
    | some below => if below.role = .value then none else descend last path below

/-- A table is opened: it is new, or known only from headers of tables below it. -/
def openTable (path : List Bytes) (s : Scope) : Option Scope :=
  descend (fun
    | none => some (mk .table true false [])
    | some (mk .table false d names) => some (mk .table true d names)
    | some _ => none) path s

/-- One more table of an array of tables, in which nothing has been said yet. -/
def openItem (path : List Bytes) (s : Scope) : Option Scope :=
  descend (fun
    | none => some (mk .array true false [])
    | some (mk .array c d _) => some (mk .array c d [])
    | some _ => none) path s

def define : List Bytes → Scope → Option Scope
  | [], s => some s
  | [name], s => s.alter name fun
    | none => some (mk .value false true [])
    | some _ => none
  | name :: path, s => s.alter name fun
    | none => define path (mk .table false true [])
    | some below =>
      if below.role = .table && !below.closed then define path below else none

end Scope

mutual

/-- Whether no table inside a value says something twice. -/
def singleValued : TomlValue → Bool
  | .array items => singleValuedAll items
  | .table entries => singleValuedEntries .empty entries
  | _ => true

def singleValuedAll : List TomlValue → Bool
  | [] => true
  | v :: vs => singleValued v && singleValuedAll vs

def singleValuedEntries (s : Scope) : List (List Bytes × TomlValue) → Bool
  | [] => true
  | (key, v) :: rest =>
    match s.define key with
    | none => false
    | some s => singleValued v && singleValuedEntries s rest

end

end Arbor.Toml
