import Arbor.Tree.Basic

/-! A walk rebuilds a tree from its leaves up and hands every node to a handler. -/
namespace Arbor

/-- What is done to a node whose children have been visited. An absent result is refused. -/
abbrev Handler := Tree → Except Fault Tree

/-- The nodes handed to handlers so far, in order, and what came of the walk. -/
structure Walk (α : Type) where
  handed : List Tree
  result : Except Fault α

namespace Walk

protected def pure (a : α) : Walk α := ⟨[], .ok a⟩

def fail (f : Fault) : Walk α := ⟨[], .error f⟩

protected def bind (w : Walk α) (next : α → Walk β) : Walk β :=
  match w.result with
  | .ok a => let rest := next a; ⟨w.handed ++ rest.handed, rest.result⟩
  | .error f => ⟨w.handed, .error f⟩

instance : Monad Walk where
  pure := Walk.pure
  bind := Walk.bind

def ofExcept : Except Fault α → Walk α
  | .ok a => Walk.pure a
  | .error f => fail f

def hand (handler : Handler) (t : Tree) : Walk Tree := ⟨[t], handler t⟩

end Walk

namespace Tree

mutual

/-- The walk over a tree whose root stands at a depth. -/
def rebuildAt (handler : Handler) (limit : Int) (depth : Nat) : Tree → Walk Tree
  | absent => Walk.fail (.absentTree .visiting)
  | node h cs => do
    Walk.ofExcept (checkDepth limit depth)
    Walk.ofExcept (check h.kind cs)
    let visited ← rebuildAll handler limit (depth + 1) cs
    let fresh ← Walk.ofExcept (ofKind h.kind h.payload visited)
    let result ← Walk.hand handler fresh
    if result.isAbsent then Walk.fail (.noResult h.kind) else return result

def rebuildAll (handler : Handler) (limit : Int) (depth : Nat) : List Tree → Walk (List Tree)
  | [] => return []
  | t :: ts => do
    let u ← rebuildAt handler limit depth t
    let us ← rebuildAll handler limit depth ts
    return u :: us

end

def rebuild (handler : Handler) (limit : Int) (t : Tree) : Walk Tree := rebuildAt handler limit 0 t

end Tree

structure Visitor where
  handler : Kind → Handler

namespace Visitor

def apply (v : Visitor) : Handler
  | .absent => .ok .absent
  | .node h cs => v.handler h.kind (.node h cs)

def walk (v : Visitor) (limit : Int) (t : Tree) : Walk Tree := t.rebuild v.apply limit

def identity : Visitor := ⟨fun _ => .ok⟩

end Visitor

/-- Handlers listed by ordinal; an entry may have none. -/
abbrev HandlerTable := List (Int × Option Handler)

structure Dispatcher where
  handler : Kind → Option Handler

namespace HandlerTable

def handler? (table : HandlerTable) (k : Kind) : Option Handler :=
  (table.lookup (k.ordinal : Int)).join

def missing (table : HandlerTable) : List Kind :=
  Kind.all.filter fun k => (handler? table k).isNone

def stray? (table : HandlerTable) : Option Int :=
  (table.find? fun e => (Kind.ofOrdinal? e.1).isNone).map Prod.fst

def identity : HandlerTable := Kind.all.map fun k => ((k.ordinal : Int), some (.ok ·))

end HandlerTable

namespace Dispatcher

/-- The dispatcher of a table that has a handler for every kind and no other entry. -/
def ofTable (table : HandlerTable) : Except Fault Dispatcher :=
  if table.missing = [] then
    match table.stray? with
    | none => .ok ⟨table.handler?⟩
    | some n => .error (.strayHandler n)
  else .error (.noHandlers table.missing)

def empty : Dispatcher := ⟨fun _ => none⟩

def apply (d : Dispatcher) : Handler
  | .absent => .ok .absent
  | .node h cs =>
    match d.handler h.kind with
    | some f => f (.node h cs)
    | none => .error (.unhandled h.kind)

def visit (d : Dispatcher) (limit : Int) (t : Tree) : Walk Tree := t.rebuild d.apply limit

end Dispatcher

def Tree.clone (limit : Int) (t : Tree) : Except Fault Tree :=
  (Visitor.identity.walk limit t).result

end Arbor
