import Arbor.Query.Expr
import Arbor.Regex.Parser

/-! Expressions are checked before they run; what is not known until then fits everywhere. -/
namespace Arbor.Query

inductive Ty where
  | unknown
  /-- A variable of any type. -/
  | any
  | nil
  | bool
  | integer
  | float
  | text
  | array (item : Ty)
  | function
  deriving DecidableEq, Repr

namespace Ty

def isUnknown : Ty → Bool
  | unknown => true
  | any => true
  | _ => false

def isNumber : Ty → Bool
  | integer => true
  | float => true
  | _ => false

/-- Whether two types are of one sort, their items aside. -/
def sameSort : Ty → Ty → Bool
  | array _, array _ => true
  | unknown, nil => true
  | nil, unknown => true
  | a, b => a = b

def comparable (a b : Ty) : Bool :=
  a.sameSort b || (a.isNumber && b.isNumber) || a.isUnknown || b.isUnknown || a = nil || b = nil

/-- Whether both are unknown, or one is and the other passes a test. -/
def mayBe (test : Ty → Bool) (a b : Ty) : Bool :=
  (a.isUnknown && (b.isUnknown || test b)) || (b.isUnknown && test a)

/-- Whether both pass a test, or may. -/
def bothOr (test : Ty → Bool) (a b : Ty) : Bool := (test a && test b) || mayBe test a b

def combined (a b : Ty) : Ty := if a = float ∨ b = float then float else integer

def assignable (a b : Ty) : Bool :=
  match a, b with
  | unknown, _ => false
  | _, unknown => false
  | nil, _ => false
  | _, any => true
  | array _, array _ => true
  | a, b => a = b

def joined (a b : Ty) : Ty :=
  if a = nil then b else if b = nil then a else if a.assignable b then a else unknown

end Ty

def variableTy? : String → Option Ty
  | "kind" => some .text
  | "op" => some .text
  | "name" => some .text
  | "value" => some .any
  | "postfix" => some .bool
  | "children" => some .integer
  | "text" => some .text
  | "depth" => some .integer
  | "parent" => some .text
  | "has" => some .function
  | _ => none

def isKindTest (s : String) : Bool := s ∈ ["has", "isExpression", "isStatement", "isTerminal"]

namespace UnaryOp

def ty? : UnaryOp → Ty → Option Ty
  | not, t => if t = .bool || t.isUnknown then some .bool else none
  | _, t => if t.isNumber then some t else if t.isUnknown then some .unknown else none

end UnaryOp

namespace BinaryOp

def ty? (op : BinaryOp) (a b : Ty) : Option Ty :=
  let isText := fun t => t = Ty.text
  let isInteger := fun t => t = Ty.integer
  let arithmetic :=
    if a.isNumber && b.isNumber then some (Ty.combined a b)
    else if Ty.mayBe Ty.isNumber a b then some .unknown
    else none
  let order :=
    if Ty.bothOr Ty.isNumber a b || Ty.bothOr isText a b then some Ty.bool else none
  let texts := if Ty.bothOr isText a b then some Ty.bool else none
  match op with
  | equal => if a.comparable b then some .bool else none
  | notEqual => if a.comparable b then some .bool else none
  | or => if Ty.bothOr (· = .bool) a b then some .bool else none
  | and => if Ty.bothOr (· = .bool) a b then some .bool else none
  | less => order
  | greater => order
  | lessEqual => order
  | greaterEqual => order
  | subtract => arithmetic
  | multiply => arithmetic
  | add =>
    if a = .text && b = .text then some .text
    else if Ty.mayBe isText a b then some .unknown
    else arithmetic
  | divide => if Ty.bothOr Ty.isNumber a b then some .float else none
  | remainder => if Ty.bothOr isInteger a b then some .integer else none
  | range => if Ty.bothOr isInteger a b then some (.array .integer) else none
  | matchesPattern => texts
  | contains => texts
  | startsWith => texts
  | endsWith => texts
  | isIn =>
    match b with
    | .array item => if a.comparable item then some .bool else none
    | .text => if a.isUnknown then some .bool else none
    | b => if b.isUnknown then some .bool else none

end BinaryOp

namespace Expr

def isBadPattern : Expr → Bool
  | text b => (Regex.parse? b).isNone
  | _ => false

def callTy? (function : String) (arguments : List Ty) : Option Ty :=
  if isKindTest function then
    match arguments with
    | [t] => if t = .text || t.isUnknown then some .bool else none
    | _ => none
  else if function = "len" then
    match arguments with
    | [.text] => some .integer
    | [.array _] => some .integer
    | [.any] => some .integer
    | [.unknown] => some .integer
    | _ => none
  else none

def arrayTy : List Ty → Ty
  | [] => .array .unknown
  | t :: ts => if ts.all (Ty.sameSort t) then .array ((t :: ts).getLastD t) else .array .any

mutual

def ty? : Expr → Option Ty
  | nil => some .nil
  | bool _ => some .bool
  | integer _ => some .integer
  | float _ => some .float
  | text _ => some .text
  | name s => variableTy? s
  | unary op e => (ty? e).bind op.ty?
  | binary op a b => do
    let s ← ty? a
    let t ← ty? b
    if op = .matchesPattern && b.isBadPattern then none else op.ty? s t
  | conditional c a b => do
    let test ← ty? c
    let s ← ty? a
    let t ← ty? b
    if test = .bool || test.isUnknown then some (Ty.joined s t) else none
  | array items => (tys? items).map arrayTy
  | call function arguments => (tys? arguments).bind (callTy? function)

def tys? : List Expr → Option (List Ty)
  | [] => some []
  | e :: es => do return (← ty? e) :: (← tys? es)

end

/-- Whether an expression may be a query: its value is a truth value or not known. -/
def isQuery (e : Expr) : Bool := (ty? e).any fun t => t = .bool || t.isUnknown

end Expr

end Arbor.Query
