import Arbor.Tree.Fault
import Arbor.Number.Binary64

/-! A child list may hold absent trees, so that positions are kept. -/
namespace Arbor

inductive Head where
  | integer (value : Int64)
  | float (value : Binary64)
  | boolean (value : Bool)
  | string (value : Bytes)
  | null
  | identifier (name : Bytes)
  /-- An operator before its operand or, if `trailing`, after it. -/
  | unary (operator : Bytes) (trailing : Bool)
  | binary (operator : Bytes)
  | invocation
  | member (name : Bytes)
  | expression
  | block
  | ifElse
  | forLoop
  deriving DecidableEq, Repr

/-- The scalar attributes of all kinds side by side; a kind uses some of them. -/
structure Payload where
  int : Int64 := 0
  float : Binary64 := .zero
  bool : Bool := false
  str : Bytes := []
  deriving DecidableEq, Repr

namespace Head

def kind : Head → Kind
  | integer _ => .integerLiteral
  | float _ => .floatLiteral
  | boolean _ => .booleanLiteral
  | string _ => .stringLiteral
  | null => .nullLiteral
  | identifier _ => .identifier
  | unary _ _ => .unaryOperator
  | binary _ => .binaryOperator
  | invocation => .invocation
  | member _ => .memberReference
  | expression => .expressionStatement
  | block => .blockStatement
  | ifElse => .ifElseStatement
  | forLoop => .forStatement

def payload : Head → Payload
  | integer v => { int := v }
  | float v => { float := v }
  | boolean v => { bool := v }
  | string v => { str := v }
  | identifier n => { str := n }
  | unary op t => { str := op, bool := t }
  | binary op => { str := op }
  | member n => { str := n }
  | _ => {}

def ofPayload (k : Kind) (p : Payload) : Head :=
  match k with
  | .integerLiteral => integer p.int
  | .floatLiteral => float p.float
  | .booleanLiteral => boolean p.bool
  | .stringLiteral => string p.str
  | .nullLiteral => null
  | .identifier => identifier p.str
  | .unaryOperator => unary p.str p.bool
  | .binaryOperator => binary p.str
  | .invocation => invocation
  | .memberReference => member p.str
  | .expressionStatement => expression
  | .blockStatement => block
  | .ifElseStatement => ifElse
  | .forStatement => forLoop

@[simp] theorem kind_ofPayload (k : Kind) (p : Payload) : (ofPayload k p).kind = k := by
  cases k <;> rfl

@[simp] theorem ofPayload_payload (h : Head) : ofPayload h.kind h.payload = h := by
  cases h <;> rfl

end Head

inductive Tree where
  | absent
  | node (head : Head) (children : List Tree)
  deriving Repr, Inhabited

namespace Tree

def isAbsent : Tree → Bool
  | absent => true
  | node _ _ => false

def children : Tree → List Tree
  | absent => []
  | node _ cs => cs

def kind? : Tree → Option Kind
  | absent => none
  | node h _ => some h.kind

/-- A conditional; without a false branch it has two children. -/
def ifElse (condition yes no : Tree) : Tree :=
  node .ifElse (if no.isAbsent then [condition, yes] else [condition, yes, no])

/-- The first child that is absent or of the wrong family for its position. -/
def checkChildren (k : Kind) : Nat → List Tree → Except Fault Unit
  | _, [] => .ok ()
  | i, absent :: _ => .error (.childAbsent k i)
  | i, node h _ :: rest =>
    if h.kind.family = k.slot i then checkChildren k (i + 1) rest
    else .error (.childFamily k i h.kind (k.slot i))

/-- Whether a list of trees can be the children of a kind: as many as its arity admits, all
present and each of the family of its position. -/
def check (k : Kind) (cs : List Tree) : Except Fault Unit :=
  if k.admits cs.length then checkChildren k 0 cs else .error (.childCount k cs.length)

/-- The node of a kind with the attributes it uses over children that fit it. -/
def ofKind (k : Kind) (p : Payload) (cs : List Tree) : Except Fault Tree := do
  check k cs
  return node (Head.ofPayload k p) cs

def build (ordinal : Int) (p : Payload) (cs : List Tree) : Except Fault Tree :=
  match Kind.ofOrdinal? ordinal with
  | some k => ofKind k p cs
  | none => .error (.noKind ordinal)

/-- The depth limit: a root has depth zero. -/
def checkDepth (limit : Int) (depth : Nat) : Except Fault Unit :=
  if limit < depth then .error (.tooDeep limit) else .ok ()

mutual

/-- Whether a tree whose root stands at a depth is present, within the limit and well shaped at
every node. The first fault in pre-order counts. -/
def validateAt (limit : Int) (depth : Nat) : Tree → Except Fault Unit
  | absent => .error (.absentTree .visiting)
  | node h cs => do
    checkDepth limit depth
    check h.kind cs
    validateAll limit (depth + 1) cs

def validateAll (limit : Int) (depth : Nat) : List Tree → Except Fault Unit
  | [] => .ok ()
  | t :: ts => do
    validateAt limit depth t
    validateAll limit depth ts

end

def validate (limit : Int) (t : Tree) : Except Fault Unit := validateAt limit 0 t

end Tree

end Arbor
