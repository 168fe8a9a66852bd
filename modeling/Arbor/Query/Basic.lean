import Arbor.Query.Eval

/-! A node on which the expression of a query fails does not match. -/
namespace Arbor

structure Query where
  source : Bytes
  expr : Query.Expr

inductive QueryError where
  | fault (fault : Fault)
  /-- The query is ill-formed, or it failed on the node. -/
  | failed
  deriving DecidableEq, Repr

def QueryError.message : QueryError → String
  | fault f => f.message
  | failed => "query error"

namespace Query

/-- The query of a text, which has to be an expression for a truth value. -/
def compile (source : Bytes) : Except QueryError Query :=
  match (Expr.parse? source).filter Expr.isQuery with
  | none => .error .failed
  | some e =>
    match e.fold? with
    | none => .error .failed
    | some expr => .ok { source, expr }

/-- The answer in an environment; a value that is no truth value is no match. -/
def run (q : Query) (env : Env) : Except QueryError Bool :=
  match q.expr.eval env with
  | none => .error .failed
  | some v => .ok (v.asBool?.getD false)

def matchWith (test : Env → Except QueryError Bool) (t : Tree) : Except QueryError Bool :=
  if t.isAbsent then .error (.fault (.absentTree .matching)) else test (Env.ofTree 0 none t)

def matchRoot (q : Query) (t : Tree) : Except QueryError Bool := matchWith q.run t

def envAt (p : Tree.Place) : Env := Env.ofTree p.depth p.parent p.tree

/-- The nodes on which an arbitrary test is true, root first. -/
def findWith (test : Env → Except QueryError Bool) (t : Tree) : List Tree :=
  (t.places.filter fun p => (test (envAt p)).toOption = some true).map Tree.Place.tree

def find (q : Query) (t : Tree) : List Tree := findWith q.run t

end Query

end Arbor
