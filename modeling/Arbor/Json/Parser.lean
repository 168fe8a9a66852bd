import Arbor.Json.Value

/-! Reading JSON: the whole text must be one value. -/
namespace Arbor.JsonValue

def skipBlank (b : Bytes) : Bytes := b.dropWhile fun c => c = 32 || c = 9 || c = 10 || c = 13

def unit? (a b c d : UInt8) : Option Nat := do
  let w ← Bytes.hexValue? a
  let x ← Bytes.hexValue? b
  let y ← Bytes.hexValue? c
  let z ← Bytes.hexValue? d
  return w * 4096 + x * 256 + y * 16 + z

/-- The character of a code unit; a surrogate has none of its own. -/
def unitChar (n : Nat) : Char := if 0xD800 ≤ n ∧ n < 0xE000 then '\uFFFD' else Char.ofNat n

/-- The character of two code units that are a pair of surrogates. -/
def pair? (high low : Nat) : Option Char :=
  if 0xD800 ≤ high ∧ high < 0xDC00 ∧ 0xDC00 ≤ low ∧ low < 0xE000 then
    some (Char.ofNat (0x10000 + (high - 0xD800) * 0x400 + (low - 0xDC00)))
  else none

def shortEscape? (b : UInt8) : Option UInt8 :=
  match b with
  | 34 => some 34
  | 92 => some 92
  | 47 => some 47
  | 98 => some 8
  | 102 => some 12
  | 110 => some 10
  | 114 => some 13
  | 116 => some 9
  | _ => none

/-- A string as it is written between its quotes, and the bytes that it stands for. -/
structure Lexeme where
  written : Bytes
  text : Bytes

def Lexeme.after (written text : Bytes) : Lexeme × Bytes → Lexeme × Bytes
  | (l, rest) => (⟨written ++ l.written, text ++ l.text⟩, rest)

/-- A string up to the quote that closes it, and what follows. -/
def stringBody : Bytes → Option (Lexeme × Bytes)
  | [] => none
  | 34 :: rest => some (⟨[], []⟩, rest)
  | 92 :: 117 :: a :: b :: c :: d :: rest => do
    let high ← unit? a b c d
    let single := fun (_ : Unit) =>
      (stringBody rest).map (Lexeme.after [92, 117, a, b, c, d] (Utf8.encode (unitChar high)))
    match rest with
    | 92 :: 117 :: e :: f :: g :: h :: rest =>
      match (unit? e f g h).bind (pair? high) with
      | some ch =>
        (stringBody rest).map
          (Lexeme.after [92, 117, a, b, c, d, 92, 117, e, f, g, h] (Utf8.encode ch))
      | none => single ()
    | _ => single ()
  | 92 :: b :: rest => do
    let c ← shortEscape? b
    (stringBody rest).map (Lexeme.after [92, b] [c])
  | b :: rest =>
    if b < 0x20 then none else (stringBody rest).map (Lexeme.after [b] [b])

def digits? (b : Bytes) : Option (Bytes × Bytes) :=
  let (ds, rest) := b.span Bytes.isDigit
  if ds = [] then none else some (ds, rest)

/-- The digits before the point: a single zero or digits that do not start with one. -/
def integerPart? (b : Bytes) : Option (Bytes × Bytes) :=
  match b with
  | 48 :: rest => some ([48], rest)
  | _ => digits? b

def fractionPart? (b : Bytes) : Option (Bytes × Bytes) :=
  match b with
  | 46 :: rest => (digits? rest).map fun (ds, rest) => (46 :: ds, rest)
  | _ => some ([], b)

def exponentPart? (b : Bytes) : Option (Bytes × Bytes) :=
  match b with
  | e :: rest =>
    if e = 101 || e = 69 then
      match rest with
      | s :: more =>
        if s = 43 || s = 45 then (digits? more).map fun (ds, rest) => (e :: s :: ds, rest)
        else (digits? rest).map fun (ds, rest) => (e :: ds, rest)
      | [] => none
    else some ([], b)
  | [] => some ([], [])

def numberText? (b : Bytes) : Option (Bytes × Bytes) := do
  let (minus, b) : Bytes × Bytes := match b with
    | 45 :: rest => ([45], rest)
    | _ => ([], b)
  let (int, b) ← integerPart? b
  let (frac, b) ← fractionPart? b
  let (exp, b) ← exponentPart? b
  return (minus ++ int ++ frac ++ exp, b)

def word? (w : Bytes) (v : JsonValue) (b : Bytes) : Option (JsonValue × Bytes) :=
  if w.isPrefixOf b then some (v, b.drop w.length) else none

abbrev Keep := Lexeme → Bytes

/-- Keeps the text, ill-formed UTF-8 replaced. -/
def Keep.text : Keep := fun l => Utf8.mend l.text

def Keep.written : Keep := Lexeme.written

mutual

/-- A value at a nesting level, blanks before it included. -/
def parseValue (keep : Keep) : Nat → Nat → Bytes → Option (JsonValue × Bytes)
  | 0, _, _ => none
  | fuel + 1, level, b =>
    match skipBlank b with
    | [] => none
    | 34 :: rest => (stringBody rest).map fun (l, rest) => (string (keep l), rest)
    | 91 :: rest =>
      if maxNesting ≤ level then none
      else match skipBlank rest with
        | 93 :: rest => some (array [], rest)
        | rest => (parseItems keep fuel (level + 1) rest).map fun (vs, rest) => (array vs, rest)
    | 123 :: rest =>
      if maxNesting ≤ level then none
      else match skipBlank rest with
        | 125 :: rest => some (object [], rest)
        | rest => (parseMembers keep fuel (level + 1) rest).map fun (ms, rest) => (object ms, rest)
    | 110 :: rest => word? "null" null (110 :: rest)
    | 116 :: rest => word? "true" (bool true) (116 :: rest)
    | 102 :: rest => word? "false" (bool false) (102 :: rest)
    | rest => (numberText? rest).map fun (text, rest) => (number text, rest)

def parseItems (keep : Keep) : Nat → Nat → Bytes → Option (List JsonValue × Bytes)
  | 0, _, _ => none
  | fuel + 1, level, b => do
    let (v, b) ← parseValue keep fuel level b
    match skipBlank b with
    | 44 :: rest =>
      let (vs, rest) ← parseItems keep fuel level rest
      return (v :: vs, rest)
    | 93 :: rest => return ([v], rest)
    | _ => none

def parseMembers (keep : Keep) : Nat → Nat → Bytes → Option (List (Bytes × JsonValue) × Bytes)
  | 0, _, _ => none
  | fuel + 1, level, b =>
    match skipBlank b with
    | 34 :: rest => do
      let (key, b) ← stringBody rest
      match skipBlank b with
      | 58 :: rest =>
        let (v, b) ← parseValue keep fuel level rest
        match skipBlank b with
        | 44 :: rest =>
          let (ms, rest) ← parseMembers keep fuel level rest
          return ((Keep.text key, v) :: ms, rest)
        | 125 :: rest => return ([(Keep.text key, v)], rest)
        | _ => none
      | _ => none
    | _ => none

end

/-- The value that is the whole text, with what is kept of its strings. -/
def parseWith? (keep : Keep) (b : Bytes) : Option JsonValue :=
  match parseValue keep (2 * b.length + 2) 0 b with
  | some (v, rest) => if skipBlank rest = [] then some v else none
  | none => none

def parse? (b : Bytes) : Option JsonValue := parseWith? .text b

def textOf (written : Bytes) : Bytes :=
  match stringBody (written ++ [34]) with
  | some (l, _) => Keep.text l
  | none => []

mutual

/-- A value whose strings are as written, with their texts instead. -/
def resolve : JsonValue → JsonValue
  | string written => string (textOf written)
  | array vs => array (resolveAll vs)
  | object ms => object (resolveMembers ms)
  | v => v

def resolveAll : List JsonValue → List JsonValue
  | [] => []
  | v :: vs => resolve v :: resolveAll vs

def resolveMembers : List (Bytes × JsonValue) → List (Bytes × JsonValue)
  | [] => []
  | (k, v) :: ms => (k, resolve v) :: resolveMembers ms

end

end Arbor.JsonValue
