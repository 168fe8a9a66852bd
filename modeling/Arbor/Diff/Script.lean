/-! A script turns one list into another by runs of items that are kept, deleted or inserted. -/
namespace Arbor

inductive Move where
  | keep
  | delete
  | insert
  deriving DecidableEq, Repr

structure Edit (α : Type) where
  move : Move
  items : List α
  deriving DecidableEq, Repr

abbrev Script (α : Type) := List (Edit α)

def commonStart [DecidableEq α] : List α → List α → List α
  | a :: as, b :: bs => if a = b then a :: commonStart as bs else []
  | _, _ => []

def commonEnd [DecidableEq α] (as bs : List α) : List α :=
  (commonStart as.reverse bs.reverse).reverse

def dropEnd (n : Nat) (as : List α) : List α := as.take (as.length - n)

namespace Script

def source (s : Script α) : List α :=
  s.flatMap fun e => if e.move = .insert then [] else e.items

def target (s : Script α) : List α :=
  s.flatMap fun e => if e.move = .delete then [] else e.items

/-- The deletions and insertions between two equalities. -/
structure Pending (α : Type) where
  deletions : Nat := 0
  insertions : Nat := 0
  deleted : List α := []
  inserted : List α := []

def Pending.edits (p : Pending α) : Script α :=
  (if p.deletions = 0 then [] else [⟨.delete, p.deleted⟩]) ++
    (if p.insertions = 0 then [] else [⟨.insert, p.inserted⟩])

/-- A script, last edit first, with more items kept at its end. -/
def keepMore (items : List α) : Script α → Script α
  | ⟨.keep, before⟩ :: done => ⟨.keep, before ++ items⟩ :: done
  | done => ⟨.keep, items⟩ :: done

/-- Pending edits and the equality after them, put on a script that has its last edit first. -/
def settle [DecidableEq α] (done : Script α) (p : Pending α) (kept : List α) : Script α :=
  if p.deletions + p.insertions > 1 then
    let start := if p.deletions ≠ 0 ∧ p.insertions ≠ 0 then commonStart p.inserted p.deleted else []
    let done := if start = [] then done else keepMore start done
    let inserted := p.inserted.drop start.length
    let deleted := p.deleted.drop start.length
    let tail := if p.deletions ≠ 0 ∧ p.insertions ≠ 0 then commonEnd inserted deleted else []
    let edits := Pending.edits { p with
      deleted := dropEnd tail.length deleted, inserted := dropEnd tail.length inserted }
    ⟨.keep, tail ++ kept⟩ :: (edits.reverse ++ done)
  else if p.deletions + p.insertions = 1 then ⟨.keep, kept⟩ :: (p.edits.reverse ++ done)
  else keepMore kept done

/-- Joins neighbouring runs; `done` has its last edit first. -/
def joinRuns [DecidableEq α] (done : Script α) (p : Pending α) : Script α → Script α
  | [] => settle done p []
  | ⟨.keep, kept⟩ :: rest => joinRuns (settle done p kept) {} rest
  | ⟨.delete, items⟩ :: rest =>
    joinRuns done { p with deletions := p.deletions + 1, deleted := p.deleted ++ items } rest
  | ⟨.insert, items⟩ :: rest =>
    joinRuns done { p with insertions := p.insertions + 1, inserted := p.inserted ++ items } rest

def dropEmptyLast : Script α → Script α
  | ⟨_, []⟩ :: done => done
  | done => done

/-- Shifts single edits between equalities sideways where that removes an equality; tells whether
it did. `before` is the edit before those given. -/
def shift [DecidableEq α] (before : Edit α) : Script α → Script α × Bool
  | [] => ([before], false)
  | [edit] => ([before, edit], false)
  | edit :: after :: rest =>
    if before.move = .keep ∧ after.move = .keep ∧ before.items.isSuffixOf edit.items then
      let body := before.items ++ dropEnd before.items.length edit.items
      (⟨edit.move, body⟩ :: (shift ⟨.keep, before.items ++ after.items⟩ rest).1, true)
    else if before.move = .keep ∧ after.move = .keep ∧ after.items.isPrefixOf edit.items then
      let body := edit.items.drop after.items.length ++ after.items
      (⟨.keep, before.items ++ after.items⟩ :: (shift ⟨edit.move, body⟩ rest).1, true)
    else
      let (shifted, changed) := shift edit (after :: rest)
      (before :: shifted, changed)

def sweep [DecidableEq α] (s : Script α) : Script α × Bool :=
  match (dropEmptyLast (joinRuns [] {} s)).reverse with
  | [] => ([], false)
  | e :: rest => shift e rest

/-- Sweeps until nothing is shifted, at most `fuel` times. -/
def tidyWith [DecidableEq α] : Nat → Script α → Script α
  | 0, s => s
  | fuel + 1, s =>
    let (s, changed) := sweep s
    if changed then tidyWith fuel s else s

def tidy [DecidableEq α] (s : Script α) : Script α :=
  tidyWith (s.foldl (fun n e => n + e.items.length + 1) 1) s

end Script

end Arbor
