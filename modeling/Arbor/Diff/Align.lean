import Arbor.Diff.Script

/-! A short script between two lists, by the shortest paths from both ends. -/
namespace Arbor.Align

def indexOf [DecidableEq α] (part : List α) : List α → Option Nat
  | [] => if part = [] then some 0 else none
  | a :: as => if part.isPrefixOf (a :: as) then some 0 else (indexOf part as).map (· + 1)

/-- Two lists cut around a part that they have in common. -/
structure Split (α : Type) where
  leftBefore : List α
  leftAfter : List α
  rightBefore : List α
  rightAfter : List α
  common : List α

def Split.swap (s : Split α) : Split α := ⟨s.rightBefore, s.rightAfter, s.leftBefore, s.leftAfter, s.common⟩

/-- The longest split around a seed at place `i` of the long list, over the places from `j` on of the
short list; `passed` is the short list before `j`, reversed. -/
def bestSplit [DecidableEq α] (long seed : List α) (i : Nat) (best : Option (Split α))
    (passed : List α) (short : List α) : Option (Split α) :=
  let best :=
    if seed.isPrefixOf short then
      let ahead := commonStart (long.drop i) short
      let behind := (commonStart (long.take i).reverse passed).reverse
      let found : Split α := {
        leftBefore := dropEnd behind.length (long.take i)
        leftAfter := (long.drop i).drop ahead.length
        rightBefore := (passed.drop behind.length).reverse
        rightAfter := short.drop ahead.length
        common := behind ++ ahead }
      match best with
      | none => if found.common = [] then none else some found
      | some b => if b.common.length < found.common.length then some found else some b
    else best
  match short with
  | [] => best
  | c :: rest => bestSplit long seed i best (c :: passed) rest

/-- The longest split around a quarter of the long list, if it covers half of it. -/
def seededSplit? [DecidableEq α] (long short : List α) (i : Nat) : Option (Split α) :=
  (bestSplit long ((long.drop i).take (long.length / 4)) i none [] short).filter fun s =>
    long.length ≤ 2 * s.common.length

/-- A split around a part that is at least half as long as the longer list. -/
def halfMatch? [DecidableEq α] (a b : List α) : Option (Split α) :=
  let long := if b.length < a.length then a else b
  let short := if b.length < a.length then b else a
  if long.length < 4 ∨ 2 * short.length < long.length then none
  else
    let first := seededSplit? long short ((long.length + 3) / 4)
    let second := seededSplit? long short ((long.length + 1) / 2)
    let best := match first, second with
      | some s, some t => if t.common.length < s.common.length then some s else some t
      | some s, none => some s
      | none, t => t
    best.map fun s => if b.length < a.length then s else s.swap

/-- How far the paths of a number of edits reach on each diagonal, and which outer diagonals have left
the grid. -/
structure Front where
  reach : Array Int
  low : Int := 0
  high : Int := 0

namespace Front

/-- The farthest column on a diagonal; no path is `-1`. -/
def get (f : Front) (offset diagonal : Int) : Int :=
  let i := offset + diagonal
  if i < 0 then -1 else f.reach.getD i.toNat (-1)

def set (f : Front) (offset diagonal x : Int) : Front :=
  { f with reach := f.reach.setIfInBounds (offset + diagonal).toNat x }

end Front

/-- The end of the run of equal items that starts at a place of the grid. -/
def slide [DecidableEq α] (a b : Array α) : Nat → Int → Int → Int × Int
  | 0, x, y => (x, y)
  | fuel + 1, x, y =>
    if 0 ≤ x ∧ 0 ≤ y ∧ x < a.size ∧ y < b.size ∧ a[x.toNat]? = b[y.toNat]? then
      slide a b fuel (x + 1) (y + 1)
    else (x, y)

/-- One front moved a step on every second diagonal from `k` on; it ends where `meets` finds that it
meets the other front. -/
def advance [DecidableEq α] (a b : Array α) (offset d : Int)
    (meets : Int → Int → Int → Option (Int × Int)) : Nat → Int → Front → Except (Int × Int) Front
  | 0, _, f => .ok f
  | fuel + 1, k, f =>
    if d - f.high < k then .ok f
    else
      let x := if k = -d ∨ (k ≠ d ∧ f.get offset (k - 1) < f.get offset (k + 1)) then
        f.get offset (k + 1) else f.get offset (k - 1) + 1
      let (x, y) := slide a b (min a.size b.size) x (x - k)
      let f := f.set offset k x
      if (a.size : Int) < x then advance a b offset d meets fuel (k + 2) { f with high := f.high + 2 }
      else if (b.size : Int) < y then
        advance a b offset d meets fuel (k + 2) { f with low := f.low + 2 }
      else match meets k x y with
        | some place => .error place
        | none => advance a b offset d meets fuel (k + 2) f

/-- Both fronts moved up to `fuel` steps, until they meet. -/
def meet [DecidableEq α] (a b ra rb : Array α) (offset : Int) :
    Nat → Int → Front → Front → Option (Int × Int)
  | 0, _, _, _ => none
  | fuel + 1, d, ahead, back =>
    let delta : Int := (a.size : Int) - b.size
    let odd := delta % 2 ≠ 0
    let bounded := fun k : Int => 0 ≤ offset + k ∧ offset + k < 2 * offset
    let onAhead := fun k x y =>
      let other := back.get offset (delta - k)
      if odd ∧ bounded (delta - k) ∧ other ≠ -1 ∧ (a.size : Int) - other ≤ x then some (x, y) else none
    match advance a b offset d onAhead (d.toNat + 1) (-d + ahead.low) ahead with
    | .error place => some place
    | .ok ahead =>
      let onBack := fun k x (_ : Int) =>
        let other := ahead.get offset (delta - k)
        if ¬ odd ∧ bounded (delta - k) ∧ other ≠ -1 ∧ (a.size : Int) - x ≤ other then
          some (other, other - (delta - k))
        else none
      match advance ra rb offset d onBack (d.toNat + 1) (-d + back.low) back with
      | .error place => some place
      | .ok back => meet a b ra rb offset fuel (d + 1) ahead back

/-- The place where shortest paths from both ends meet. -/
def middle? [DecidableEq α] (a b : List α) : Option (Nat × Nat) :=
  let half := (a.length + b.length + 1) / 2
  let start : Front :=
    { reach := (Array.replicate (2 * half) (-1 : Int)).setIfInBounds (half + 1) 0 }
  (meet a.toArray b.toArray a.reverse.toArray b.reverse.toArray half half 0 start start).map
    fun (x, y) => (x.toNat, y.toNat)

mutual

/-- A script between two lists, splitting them at most `fuel` deep. -/
def scriptWith [DecidableEq α] : Nat → List α → List α → Script α
  | 0, a, b => [⟨.delete, a⟩, ⟨.insert, b⟩]
  | fuel + 1, a, b =>
    if a = b then if a = [] then [] else [⟨.keep, a⟩]
    else
      let head := commonStart a b
      let a := a.drop head.length
      let b := b.drop head.length
      let tail := commonEnd a b
      let inner := innerWith fuel (dropEnd tail.length a) (dropEnd tail.length b)
      Script.tidy <|
        (if head = [] then [] else [⟨.keep, head⟩]) ++ inner ++
          (if tail = [] then [] else [⟨.keep, tail⟩])

/-- A script between two lists that share neither their start nor their end. -/
def innerWith [DecidableEq α] : Nat → List α → List α → Script α
  | 0, a, b => [⟨.delete, a⟩, ⟨.insert, b⟩]
  | fuel + 1, a, b =>
    if a = [] then [⟨.insert, b⟩]
    else if b = [] then [⟨.delete, a⟩]
    else
      let leftLonger : Bool := b.length < a.length
      let long := if leftLonger then a else b
      let short := if leftLonger then b else a
      match indexOf short long with
      | some i =>
        let move := if leftLonger then Move.delete else Move.insert
        [⟨move, long.take i⟩, ⟨.keep, short⟩, ⟨move, long.drop (i + short.length)⟩]
      | none =>
        if short.length = 1 then [⟨.delete, a⟩, ⟨.insert, b⟩]
        else match halfMatch? a b with
          | some s =>
            scriptWith fuel s.leftBefore s.rightBefore ++ [⟨.keep, s.common⟩] ++
              scriptWith fuel s.leftAfter s.rightAfter
          | none =>
            match middle? a b with
            | some (x, y) =>
              scriptWith fuel (a.take x) (b.take y) ++ scriptWith fuel (a.drop x) (b.drop y)
            | none => [⟨.delete, a⟩, ⟨.insert, b⟩]

end

def script [DecidableEq α] (a b : List α) : Script α := scriptWith (2 * (a.length + b.length) + 2) a b

end Arbor.Align
