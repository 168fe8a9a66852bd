import Arbor.Tree.Basic

/-! The sample program:
```
a = 42;
System.Console.WriteLine(a, b, true, "str", null, -3.14);
for (i = 0; i < 10; i++) {if (i == 5) {Foo();}}
```
-/
namespace Arbor

structure Sample where
  operator : Bytes := Bytes.ofString "="
  value : Int64 := 42
  callee : Bytes := Bytes.ofString "Foo"
  bound : Int64 := 10
  otherwise : Tree := .absent
  /-- How many of the three statements are kept. -/
  statements : Nat := 3

namespace Sample

def int (n : Int64) : Tree := .node (.integer n) []
def ident (n : Bytes) : Tree := .node (.identifier n) []
def unary (op : Bytes) (t : Tree) : Tree := .node (.unary op false) [t]
def binary (l : Tree) (op : Bytes) (r : Tree) : Tree := .node (.binary op) [l, r]
def call (target : Tree) (args : List Tree) : Tree := .node .invocation (target :: args)
def member (target : Tree) (name : Bytes) : Tree := .node (.member name) [target]
def statement (e : Tree) : Tree := .node .expression [e]

/-- The nearest number to 3.14. -/
def pi : Binary64 := ⟨0x40091EB851EB851F⟩

def tree (s : Sample) : Tree :=
  .node .block <| List.take s.statements [
    statement (binary (ident "a") s.operator (int s.value)),
    statement (call (member (member (ident "System") "Console") "WriteLine") [
      ident "a", ident "b", .node (.boolean true) [], .node (.string (Bytes.ofString "str")) [],
      .node .null [], unary "-" (.node (.float pi) [])]),
    .node .forLoop [
      statement (binary (ident "i") "=" (int 0)),
      binary (ident "i") "<" (int s.bound),
      .node (.unary (Bytes.ofString "++") true) [ident "i"],
      Tree.ifElse (binary (ident "i") "==" (int 5)) (statement (call (ident s.callee) []))
        s.otherwise]]

def kinds : List Kind :=
  [.expressionStatement, .binaryOperator, .identifier, .integerLiteral, .expressionStatement,
    .invocation, .memberReference, .memberReference, .identifier, .identifier, .identifier,
    .booleanLiteral, .stringLiteral, .nullLiteral, .unaryOperator, .floatLiteral, .forStatement,
    .expressionStatement, .binaryOperator, .identifier, .integerLiteral, .binaryOperator,
    .identifier, .integerLiteral, .unaryOperator, .identifier, .ifElseStatement, .binaryOperator,
    .identifier, .integerLiteral, .expressionStatement, .invocation, .identifier]

end Sample

end Arbor
