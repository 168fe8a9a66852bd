import Arbor.Number.Decimal
import Arbor.Number.Reading

/-! A store counts the trees put into it and the lookups, these by their result. -/
namespace Arbor

inductive Lookup where
  | corrupt
  | error
  | hit
  | miss
  deriving DecidableEq, Repr

namespace Lookup

def all : List Lookup := [corrupt, error, hit, miss]

def label : Lookup → String
  | corrupt => "corrupt"
  | error => "error"
  | hit => "hit"
  | miss => "miss"

end Lookup

structure Counters where
  puts : Nat := 0
  lookups : Lookup → Nat := fun _ => 0

namespace Counters

def countPut (c : Counters) : Counters := { c with puts := c.puts + 1 }

def countLookup (r : Lookup) (c : Counters) : Counters :=
  { c with lookups := fun x => if x = r then c.lookups x + 1 else c.lookups x }

def lookupsName : String := "syntree_store_lookups_total"

def putsName : String := "syntree_store_puts_total"

structure Sample where
  name : String
  label : Option String
  count : Nat
  deriving DecidableEq, Repr

/-- The counters in the order of their names; a result that has not occurred is left out. -/
def samples (c : Counters) : List Sample :=
  (Lookup.all.filter fun r => c.lookups r ≠ 0).map
      (fun r => ⟨lookupsName, some r.label, c.lookups r⟩) ++
    [⟨putsName, none, c.puts⟩]

/-- The number of a sample, large ones with an exponent. -/
def Sample.number (s : Sample) : Bytes :=
  ((Reading.float? (Bytes.ofNat s.count)).map Binary64.general).getD []

def Sample.line (s : Sample) : Bytes :=
  Bytes.ofString s.name ++
    (match s.label with
      | none => []
      | some l => Bytes.ofString ("\x7bresult=\"" ++ l ++ "\"\x7d")) ++
    [32] ++ s.number ++ [10]

end Counters

abbrev Registry := List String

namespace Registry

/-- The registry with the counters of one more store, unless there are some already. -/
def register? (r : Registry) : Option Registry :=
  let names := [Counters.lookupsName, Counters.putsName]
  if names.any (r.contains ·) then none else some (r ++ names)

end Registry

end Arbor
