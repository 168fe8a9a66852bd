import Arbor.Text.Utf8

/-! Regular expressions and the places where a match that starts at a place can end. -/
namespace Arbor

inductive CharSet where
  | range (low high : Nat)
  | union (a b : CharSet)
  | compl (a : CharSet)
  /-- The set with the other cases of its characters. -/
  | folded (a : CharSet)
  | empty
  deriving Inhabited, Repr

namespace CharSet

/-- The cases of a character, for those that have an ASCII letter among their cases. -/
def cases (c : Nat) : List Nat :=
  let lower := if 65 ≤ c && c ≤ 90 then c + 32 else if c = 0x17F then 115 else if c = 0x212A then 107 else c
  if 97 ≤ lower && lower ≤ 122 then
    [lower, lower - 32] ++ (if lower = 115 then [0x17F] else if lower = 107 then [0x212A] else [])
  else [c]

def contains (c : Nat) : CharSet → Bool
  | range low high => low ≤ c && c ≤ high
  | union a b => contains c a || contains c b
  | compl a => !contains c a
  | folded a => (cases c).any fun d => contains d a
  | empty => false

def ofRanges : List (Nat × Nat) → CharSet
  | [] => empty
  | (low, high) :: rest => union (range low high) (ofRanges rest)

def digit : CharSet := range 48 57

def space : CharSet := ofRanges [(9, 10), (12, 13), (32, 32)]

def word : CharSet := ofRanges [(48, 57), (65, 90), (95, 95), (97, 122)]

end CharSet

inductive Regex where
  | empty
  | set (s : CharSet)
  | seq (a b : Regex)
  | alt (a b : Regex)
  /-- At least `least` and at most `most` times, without bound if that is missing. -/
  | rep (least : Nat) (most : Option Nat) (a : Regex)
  | textStart
  | textEnd
  | lineStart
  | lineEnd
  | wordEdge (inside : Bool)
  deriving Inhabited, Repr

namespace Regex

def merge (seen : List Nat) (more : List Nat) : List Nat :=
  more.foldl (fun acc i => if i ∈ acc then acc else acc ++ [i]) seen

def stepAll (step : Nat → List Nat) (places : List Nat) : List Nat :=
  places.foldl (fun acc i => merge acc (step i)) []

def times (step : Nat → List Nat) : Nat → List Nat → List Nat
  | 0, places => places
  | n + 1, places => times step n (stepAll step places)

def upTo (step : Nat → List Nat) : Nat → List Nat → List Nat
  | 0, places => places
  | n + 1, places => merge places (upTo step n (stepAll step places))

def wordAt (text : Array Char) (i : Nat) : Bool :=
  (text[i]?).any fun c => CharSet.word.contains c.toNat

/-- The ends of the matches that start at a place. -/
def ends (text : Array Char) : Regex → Nat → List Nat
  | empty, i => [i]
  | set s, i => if (text[i]?).any fun c => s.contains c.toNat then [i + 1] else []
  | seq a b, i => stepAll (ends text b) (ends text a i)
  | alt a b, i => merge (ends text a i) (ends text b i)
  | rep least most a, i =>
    let most := match most with
      | some n => n - least
      | none => text.size + 1
    upTo (ends text a) most (times (ends text a) least [i])
  | textStart, i => if i = 0 then [i] else []
  | textEnd, i => if i = text.size then [i] else []
  | lineStart, i => if i = 0 || text[i - 1]? = some '\n' then [i] else []
  | lineEnd, i => if i = text.size || text[i]? = some '\n' then [i] else []
  | wordEdge inside, i =>
    let edge := wordAt text i != (0 < i && wordAt text (i - 1))
    if edge != inside then [i] else []

def matchesFrom (r : Regex) (text : Array Char) : Nat → Bool
  | 0 => !(r.ends text 0).isEmpty
  | n + 1 => !(r.ends text (n + 1)).isEmpty || matchesFrom r text n

/-- Whether an expression matches some part of a text. -/
def matchesIn (r : Regex) (b : Bytes) : Bool :=
  let text := (Utf8.chars b).toArray
  r.matchesFrom text text.size

end Regex

end Arbor
