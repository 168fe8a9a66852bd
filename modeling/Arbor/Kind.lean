import Arbor.Text.Quoted

/-! The fourteen kinds of nodes, ten of expressions and four of statements. -/
namespace Arbor

inductive Kind where
  | integerLiteral
  | floatLiteral
  | booleanLiteral
  | stringLiteral
  | nullLiteral
  | identifier
  | unaryOperator
  | binaryOperator
  | invocation
  | memberReference
  | expressionStatement
  | blockStatement
  | ifElseStatement
  | forStatement
  deriving DecidableEq, Repr, Inhabited

/-- The two sorts of places in a tree. -/
inductive Family where
  | expression
  | statement
  deriving DecidableEq, Repr

namespace Kind

def all : List Kind :=
  [integerLiteral, floatLiteral, booleanLiteral, stringLiteral, nullLiteral, identifier,
    unaryOperator, binaryOperator, invocation, memberReference, expressionStatement,
    blockStatement, ifElseStatement, forStatement]

def ordinal : Kind → Nat
  | integerLiteral => 1
  | floatLiteral => 2
  | booleanLiteral => 3
  | stringLiteral => 4
  | nullLiteral => 5
  | identifier => 6
  | unaryOperator => 7
  | binaryOperator => 8
  | invocation => 9
  | memberReference => 10
  | expressionStatement => 11
  | blockStatement => 12
  | ifElseStatement => 13
  | forStatement => 14

def ofOrdinal? (n : Int) : Option Kind := all.find? fun k => (k.ordinal : Int) = n

def name : Kind → String
  | integerLiteral => "IntegerLiteral"
  | floatLiteral => "FloatLiteral"
  | booleanLiteral => "BooleanLiteral"
  | stringLiteral => "StringLiteral"
  | nullLiteral => "NullLiteral"
  | identifier => "Identifier"
  | unaryOperator => "UnaryOperatorExpression"
  | binaryOperator => "BinaryOperatorExpression"
  | invocation => "InvocationExpression"
  | memberReference => "MemberReferenceExpression"
  | expressionStatement => "ExpressionStatement"
  | blockStatement => "BlockStatement"
  | ifElseStatement => "IfElseStatement"
  | forStatement => "ForStatement"

def ofName? (b : Bytes) : Option Kind := all.find? fun k => Bytes.ofString k.name = b

def nameOfOrdinal (n : Int) : String := ((ofOrdinal? n).map name).getD "<unknown kind>"

def family (k : Kind) : Family := if k.ordinal ≤ 10 then .expression else .statement

def isTerminal (k : Kind) : Bool := k.ordinal ≤ 6

/-- The least and, if there is one, the greatest number of children. -/
def arity : Kind → Nat × Option Nat
  | unaryOperator | memberReference | expressionStatement => (1, some 1)
  | binaryOperator => (2, some 2)
  | invocation => (1, none)
  | blockStatement => (0, none)
  | ifElseStatement => (2, some 3)
  | forStatement => (4, some 4)
  | _ => (0, some 0)

def admits (k : Kind) (count : Nat) : Bool := k.arity.1 ≤ count && k.arity.2.all (count ≤ ·)

/-- The sort of node that belongs at a child position. -/
def slot : Kind → Nat → Family
  | blockStatement, _ => .statement
  | ifElseStatement, i => if i = 0 then .expression else .statement
  | forStatement, i => if i = 1 ∨ i = 2 then .expression else .statement
  | _, _ => .expression

end Kind

end Arbor
