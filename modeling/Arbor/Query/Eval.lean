import Arbor.Query.Typing
import Arbor.Query.Value
import Arbor.Tree.Outline
import Arbor.Tree.Traversal

/-! Constant parts are computed when a query is compiled; what runs sees one node. -/
namespace Arbor.Query

structure Env where
  kind : Bytes := []
  op : Bytes := []
  name : Bytes := []
  value : Value := .nil
  trailing : Bool := false
  children : Nat := 0
  text : Bytes := []
  depth : Int := 0
  parent : Bytes := []
  childKinds : List Bytes := []

namespace Env

def valueOf : Head → Value
  | .integer v => .integer v
  | .float v => .float v
  | .boolean v => .bool v
  | .string v => .text v
  | _ => .nil

def nameOf : Head → Bytes
  | .identifier n => n
  | .member n => n
  | _ => []

def opOf : Head → Bytes
  | .unary op _ => op
  | .binary op => op
  | _ => []

def trailingOf : Head → Bool
  | .unary _ trailing => trailing
  | _ => false

def ofTree (depth : Int) (parent : Option Kind) : Tree → Env
  | .absent => { depth }
  | .node h cs => {
      kind := Bytes.ofString h.kind.name
      op := opOf h
      name := nameOf h
      value := valueOf h
      trailing := trailingOf h
      children := cs.length
      text := (Tree.node h cs).text
      depth
      parent := (parent.map fun k => Bytes.ofString k.name).getD []
      childKinds := cs.filterMap fun c => c.kind?.map fun k => Bytes.ofString k.name }

def has (env : Env) (kind : Bytes) : Bool := env.childKinds.contains kind

def lookup? (env : Env) : String → Option Value
  | "kind" => some (.text env.kind)
  | "op" => some (.text env.op)
  | "name" => some (.text env.name)
  | "value" => some env.value
  | "postfix" => some (.bool env.trailing)
  | "children" => some (.integer (Int64.ofNat env.children))
  | "text" => some (.text env.text)
  | "depth" => some (.integer (Int64.ofInt env.depth))
  | "parent" => some (.text env.parent)
  | _ => none

end Env

namespace Expr

def literal? : Expr → Option Value
  | bool b => some (.bool b)
  | integer n => some (.integer n)
  | float x => some (.float x)
  | text b => some (.text b)
  | _ => none

def ofValue? : Value → Option Expr
  | .bool b => some (bool b)
  | .integer n => some (integer n)
  | .float x => some (float x)
  | .text b => some (text b)
  | _ => none

def constant? (f : Value → Value → Option Value) (a b : Expr) : Option Expr := do
  ofValue? (← f (← a.literal?) (← b.literal?))

def constantEqual? : Expr → Expr → Option Bool
  | integer a, integer b => some (a = b)
  | text a, text b => some (a = b)
  | bool a, bool b => some (a = b)
  | _, _ => none

/-- An operation with its constant parts computed; none if it cannot have a value. -/
def foldBinary (op : BinaryOp) (a b : Expr) : Option Expr :=
  let whole := binary op a b
  match op with
  | .add => some ((constant? Value.add? a b).getD whole)
  | .subtract => some ((constant? (Value.arithmetic? (· - ·) (· - ·)) a b).getD whole)
  | .multiply => some ((constant? (Value.arithmetic? (· * ·) (· * ·)) a b).getD whole)
  | .divide => some ((constant? Value.divide? a b).getD whole)
  | .remainder =>
    match a, b with
    | integer _, integer _ => constant? Value.remainder? a b
    | _, _ => some whole
  | .equal => some (((constantEqual? a b).map bool).getD whole)
  | .and =>
    match a, b with
    | bool true, b => some b
    | a, bool true => some a
    | bool false, _ => some (bool false)
    | _, bool false => some (bool false)
    | _, _ => some whole
  | .or =>
    match a, b with
    | bool false, b => some b
    | a, bool false => some a
    | bool true, _ => some (bool true)
    | _, bool true => some (bool true)
    | _, _ => some whole
  | .isIn =>
    match ty? a, b with
    | some .integer, binary .range (integer low) (integer high) =>
      some (binary .and (binary .greaterEqual a (integer low)) (binary .lessEqual a (integer high)))
    | _, _ => some whole
  | .matchesPattern => if b.isBadPattern then none else some whole
  | _ => some whole

def foldUnary (op : UnaryOp) (e : Expr) : Expr :=
  match op, e with
  | .minus, integer n => integer (-n)
  | .minus, float x => ((Value.negate? (.float x)).bind ofValue?).getD (unary op e)
  | .plus, integer n => integer n
  | .plus, float x => float x
  | .not, bool b => bool !b
  | _, _ => unary op e

mutual

def fold? : Expr → Option Expr
  | unary op e => (fold? e).map (foldUnary op)
  | binary op a b => do foldBinary op (← fold? a) (← fold? b)
  | conditional c a b => do return conditional (← fold? c) (← fold? a) (← fold? b)
  | array items => (foldAll? items).map array
  | call f arguments => (foldAll? arguments).map (call f)
  | e => some e

def foldAll? : List Expr → Option (List Expr)
  | [] => some []
  | e :: es => do return (← fold? e) :: (← foldAll? es)

end

end Expr

namespace BinaryOp

/-- An operation on two values; `and` and `or` are not among them. -/
def run? (op : BinaryOp) (a b : Value) : Option Value :=
  let truth := fun (o : Option Bool) => o.map Value.bool
  match op with
  | equal => some (.bool (a.same b))
  | notEqual => some (.bool !(a.same b))
  | less => truth (a.less? b)
  | greater => truth (b.less? a)
  | lessEqual => truth (a.atMost? b)
  | greaterEqual => truth (b.atMost? a)
  | isIn => truth (a.isIn? b)
  | matchesPattern =>
    truth (Value.texts? (fun s p => (Regex.parse? p).map (·.matchesIn s)) a b)
  | contains => truth (Value.texts? (fun s p => some (Bytes.hasPart p s)) a b)
  | startsWith => truth (Value.texts? (fun s p => some (p.isPrefixOf s)) a b)
  | endsWith => truth (Value.texts? (fun s p => some (p.isSuffixOf s)) a b)
  | range => a.range? b
  | add => a.add? b
  | subtract => Value.arithmetic? (· - ·) (· - ·) a b
  | multiply => Value.arithmetic? (· * ·) (· * ·) a b
  | divide => a.divide? b
  | remainder => a.remainder? b
  | or => none
  | and => none

end BinaryOp

def UnaryOp.run? : UnaryOp → Value → Option Value
  | not, v => v.asBool?.map fun b => .bool !b
  | minus, v => v.negate?
  | plus, v => some v

def kindIs (p : Kind → Bool) (name : Bytes) : Bool := (Kind.ofName? name).any p

def callFunction? (env : Env) (function : String) (argument : Value) : Option Value :=
  match function, argument with
  | "len", v => v.length?
  | "has", .text b => some (.bool (env.has b))
  | "isExpression", .text b => some (.bool (kindIs (·.family = .expression) b))
  | "isStatement", .text b => some (.bool (kindIs (·.family = .statement) b))
  | "isTerminal", .text b => some (.bool (kindIs Kind.isTerminal b))
  | _, _ => none

namespace Expr

mutual

/-- The value of an expression in an environment; none if it fails. The right side of `and` and `or`
counts as it is, only the left one has to be a truth value. -/
def eval (env : Env) : Expr → Option Value
  | nil => some .nil
  | bool b => some (.bool b)
  | integer n => some (.integer n)
  | float x => some (.float x)
  | text b => some (.text b)
  | name s => env.lookup? s
  | unary op e => (eval env e).bind op.run?
  | binary .and a b => do if ← (← eval env a).asBool? then eval env b else some (.bool false)
  | binary .or a b => do if ← (← eval env a).asBool? then some (.bool true) else eval env b
  | binary op a b => do op.run? (← eval env a) (← eval env b)
  | conditional c a b => do if ← (← eval env c).asBool? then eval env a else eval env b
  | array items => (evalAll env items).map .array
  | call f arguments => do
    match ← evalAll env arguments with
    | [v] => callFunction? env f v
    | _ => none

def evalAll (env : Env) : List Expr → Option (List Value)
  | [] => some []
  | e :: es => do return (← eval env e) :: (← evalAll env es)

end

end Expr

end Arbor.Query
