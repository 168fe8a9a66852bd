import Arbor.Query.Token

/-! Comparisons in a row hold together, so that `1 < x < 3` is `1 < x && x < 3`. -/
namespace Arbor.Query

inductive UnaryOp where
  | not
  | minus
  | plus
  deriving DecidableEq, Repr

inductive BinaryOp where
  | or
  | and
  | equal
  | notEqual
  | less
  | greater
  | lessEqual
  | greaterEqual
  | isIn
  | matchesPattern
  | contains
  | startsWith
  | endsWith
  | range
  | add
  | subtract
  | multiply
  | divide
  | remainder
  deriving DecidableEq, Repr

inductive Expr where
  | nil
  | bool (b : Bool)
  | integer (n : Int64)
  | float (x : Binary64)
  | text (b : Bytes)
  | name (s : String)
  | unary (op : UnaryOp) (e : Expr)
  | binary (op : BinaryOp) (a b : Expr)
  | conditional (test yes no : Expr)
  | array (items : List Expr)
  | call (function : String) (arguments : List Expr)
  deriving Inhabited, Repr

namespace UnaryOp

def ofSymbol? : String → Option UnaryOp
  | "not" => some not
  | "!" => some not
  | "-" => some minus
  | "+" => some plus
  | _ => none

def level : UnaryOp → Nat
  | not => 50
  | minus => 90
  | plus => 90

end UnaryOp

namespace BinaryOp

def ofSymbol? : String → Option BinaryOp
  | "or" => some or
  | "||" => some or
  | "and" => some and
  | "&&" => some and
  | "==" => some equal
  | "!=" => some notEqual
  | "<" => some less
  | ">" => some greater
  | "<=" => some lessEqual
  | ">=" => some greaterEqual
  | "in" => some isIn
  | "matches" => some matchesPattern
  | "contains" => some contains
  | "startsWith" => some startsWith
  | "endsWith" => some endsWith
  | ".." => some range
  | "+" => some add
  | "-" => some subtract
  | "*" => some multiply
  | "/" => some divide
  | "%" => some remainder
  | _ => none

/-- How tightly the operands are bound. -/
def level : BinaryOp → Nat
  | or => 10
  | and => 15
  | range => 25
  | add => 30
  | subtract => 30
  | multiply => 60
  | divide => 60
  | remainder => 60
  | _ => 20

/-- The comparisons that hold together in a row. -/
def isComparison : BinaryOp → Bool
  | less => true
  | greater => true
  | lessEqual => true
  | greaterEqual => true
  | _ => false

/-- The operators that `not` may stand before. -/
def isNegatable : BinaryOp → Bool
  | isIn => true
  | matchesPattern => true
  | contains => true
  | startsWith => true
  | endsWith => true
  | _ => false

end BinaryOp

namespace Expr

def integerOf? (base : Nat) (s : String) : Option Expr := do
  let n ← Reading.digits? base (Bytes.ofString s)
  return integer (← Reading.int64? n)

def ofNumber? (s : String) : Option Expr :=
  let cs := s.toList.filter (· ≠ '_')
  let clean := String.ofList cs
  match cs.map Char.toLower with
  | '0' :: 'x' :: rest => integerOf? 16 (String.ofList rest)
  | '0' :: 'b' :: rest => integerOf? 2 (String.ofList rest)
  | '0' :: 'o' :: rest => integerOf? 8 (String.ofList rest)
  | lower =>
    if lower.any fun c => c = '.' || c = 'e' then (Reading.numeral? (Bytes.ofString clean)).map float
    else integerOf? 10 clean

def ofWord : String → Expr
  | "true" => bool true
  | "false" => bool false
  | "nil" => nil
  | s => name s

abbrev Tokens := List Token

/-- The operator that comes next, if it binds at least as tightly as a level: with `not` before it or
without, and the tokens after it. -/
def operator? (level : Nat) : Tokens → Option (Bool × BinaryOp × Tokens)
  | .operator "not" :: .operator s :: rest => do
    let op ← BinaryOp.ofSymbol? s
    if op.isNegatable && level ≤ op.level then some (true, op, rest) else none
  | .operator s :: rest => do
    let op ← BinaryOp.ofSymbol? s
    if level ≤ op.level then some (false, op, rest) else none
  | _ => none

mutual

/-- An expression whose operators bind at least as tightly as a level. -/
def parse : Nat → Nat → Tokens → Option (Expr × Tokens)
  | 0, _, _ => none
  | fuel + 1, level, ts => do
    let (e, ts) ← parsePrimary fuel ts
    let (e, ts) ← parseOperators fuel level e ts
    if level = 0 then parseConditional fuel e ts else return (e, ts)

def parseOperators : Nat → Nat → Expr → Tokens → Option (Expr × Tokens)
  | 0, _, _, _ => none
  | fuel + 1, level, left, ts =>
    match operator? level ts with
    | none => some (left, ts)
    | some (negated, op, ts) => do
      let (e, ts) ←
        if op.isComparison then parseComparisons fuel none op left ts
        else do
          let (right, ts) ← parse fuel (op.level + 1) ts
          let e := binary op left right
          pure (if negated then unary .not e else e, ts)
      parseOperators fuel level e ts

/-- Comparisons in a row; `before` holds those read so far. -/
def parseComparisons : Nat → Option Expr → BinaryOp → Expr → Tokens → Option (Expr × Tokens)
  | 0, _, _, _, _ => none
  | fuel + 1, before, op, left, ts => do
    let (right, ts) ← parse fuel (op.level + 1) ts
    let e := match before with
      | none => binary op left right
      | some before => binary .and before (binary op left right)
    match ts with
    | .operator s :: rest =>
      match BinaryOp.ofSymbol? s with
      | some next =>
        if next.isComparison then parseComparisons fuel (some e) next right rest else return (e, ts)
      | none => return (e, ts)
    | _ => return (e, ts)

def parseConditional : Nat → Expr → Tokens → Option (Expr × Tokens)
  | 0, _, _ => none
  | fuel + 1, test, ts =>
    match ts with
    | .operator "?" :: .operator ":" :: rest => do
      let (no, rest) ← parse fuel 0 rest
      parseConditional fuel (conditional test test no) rest
    | .operator "?" :: rest => do
      let (yes, rest) ← parse fuel 0 rest
      match rest with
      | .operator ":" :: rest =>
        let (no, rest) ← parse fuel 0 rest
        parseConditional fuel (conditional test yes no) rest
      | _ => none
    | _ => some (test, ts)

/-- A literal, a name, a call, an array, or an operand in parentheses or after a sign. -/
def parsePrimary : Nat → Tokens → Option (Expr × Tokens)
  | 0, _ => none
  | fuel + 1, ts =>
    match ts with
    | .operator s :: rest => do
      let op ← UnaryOp.ofSymbol? s
      let (e, rest) ← parse fuel op.level rest
      return (unary op e, rest)
    | .bracket '(' :: rest => do
      let (e, rest) ← parse fuel 0 rest
      match rest with
      | .bracket ')' :: rest => return (e, rest)
      | _ => none
    | .bracket '[' :: rest => (parseList fuel ']' true rest).map fun (es, rest) => (array es, rest)
    | .name s :: .bracket '(' :: rest =>
      match ofWord s with
      | name s => (parseList fuel ')' true rest).map fun (es, rest) => (call s es, rest)
      | _ => none
    | .name s :: rest => some (ofWord s, rest)
    | .number s :: rest => (ofNumber? s).map (·, rest)
    | .text b :: rest => some (text b, rest)
    | _ => none

/-- Expressions between commas up to a closing bracket, after an optional last comma. -/
def parseList : Nat → Char → Bool → Tokens → Option (List Expr × Tokens)
  | 0, _, _, _ => none
  | fuel + 1, close, first, ts =>
    match ts with
    | [] => none
    | t :: rest =>
      if t = .bracket close then some ([], rest)
      else do
        let ts ← if first then some ts else if t = .operator "," then some rest else none
        match ts with
        | [] => none
        | t :: rest =>
          if t = .bracket close then return ([], rest)
          else
            let (e, rest) ← parse fuel 0 ts
            let (es, rest) ← parseList fuel close false rest
            return (e :: es, rest)

end

def parse? (b : Bytes) : Option Expr := do
  let ts ← Token.scan? b
  match parse (4 * ts.length + 8) 0 ts with
  | some (e, []) => some e
  | _ => none

end Expr

end Arbor.Query
