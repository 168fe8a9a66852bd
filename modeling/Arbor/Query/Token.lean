import Arbor.Number.Reading

/-! Tokens of queries. -/
namespace Arbor.Query

inductive Token where
  | name (s : String)
  | number (s : String)
  | text (b : Bytes)
  | operator (s : String)
  | bracket (c : Char)
  deriving DecidableEq, Repr

namespace Token

def isNameChar (c : Char) : Bool := c.isAlphanum || c = '_' || c = '$'

def wordOperators : List String :=
  ["not", "in", "or", "and", "matches", "contains", "startsWith", "endsWith", "let", "if", "else"]

def ofWord (w : String) : Token := if w ∈ wordOperators then operator w else name w

def digitValue? (c : Char) : Option Nat :=
  if c.toNat < 128 then Bytes.hexValue? (Bytes.ofChar c) else none

def ofDigits? (cs : List Char) : Option Bytes := do
  let n ← cs.foldl (fun acc c => do return 16 * (← acc) + (← digitValue? c)) (some 0)
  if 0x10FFFF < n then none
  else some (Utf8.encode (if n.isValidChar then Char.ofNat n else '\uFFFD'))

def shortEscape? (c : Char) : Option UInt8 :=
  match c with
  | 'a' => some 7
  | 'b' => some 8
  | 't' => some 9
  | 'n' => some 10
  | 'v' => some 11
  | 'f' => some 12
  | 'r' => some 13
  | '\\' => some 92
  | _ => none

def isOctal (c : Char) : Bool := '0' ≤ c && c ≤ '7'

def quoted? (quote : Char) : List Char → Option (Bytes × List Char)
  | [] => none
  | '\\' :: 'x' :: a :: b :: rest => do
    let ch ← ofDigits? [a, b]
    let (body, after) ← quoted? quote rest
    return (ch ++ body, after)
  | '\\' :: 'u' :: a :: b :: c :: d :: rest => do
    let ch ← ofDigits? [a, b, c, d]
    let (body, after) ← quoted? quote rest
    return (ch ++ body, after)
  | '\\' :: 'U' :: a :: b :: c :: d :: e :: f :: g :: h :: rest => do
    let ch ← ofDigits? [a, b, c, d, e, f, g, h]
    let (body, after) ← quoted? quote rest
    return (ch ++ body, after)
  | '\\' :: c :: rest => do
    if c = quote then
      let (body, after) ← quoted? quote rest
      return (Utf8.encode c ++ body, after)
    else if isOctal c then
      match rest with
      | d :: e :: rest =>
        if '3' < c || !isOctal d || !isOctal e then none
        else
          let n := (c.toNat - 48) * 64 + (d.toNat - 48) * 8 + (e.toNat - 48)
          let (body, after) ← quoted? quote rest
          return (Utf8.encode (Char.ofNat n) ++ body, after)
      | _ => none
    else
      let ch ← shortEscape? c
      let (body, after) ← quoted? quote rest
      return (ch :: body, after)
  | c :: rest =>
    if c = quote then some ([], rest)
    else if c = '\n' then none
    else do
      let (body, after) ← quoted? quote rest
      return (Utf8.encode c ++ body, after)

def digitsAfter (mark : Option Char) (c : Char) : Bool :=
  c = '_' || match mark with
    | some m =>
      if m = 'x' || m = 'X' then (digitValue? c).isSome
      else if m = 'o' || m = 'O' then isOctal c
      else c = '0' || c = '1'
    | none => c.isDigit

/-- A number with an optional base mark, fraction and exponent; no name may follow directly. -/
def number? (cs : List Char) : Option (String × List Char) :=
  let (lead, mark) := match cs with
    | '0' :: m :: _ => if m ∈ ['x', 'X', 'o', 'O', 'b', 'B'] then (['0', m], some m) else ([], none)
    | _ => ([], none)
  let digit := digitsAfter mark
  let (whole, cs) := (cs.drop lead.length).span digit
  let (fraction, cs) := match cs with
    | '.' :: rest =>
      if rest.head? = some '.' then ([], cs) else let (ds, rest) := rest.span digit; ('.' :: ds, rest)
    | _ => ([], cs)
  let range := fraction.isEmpty && cs.head? = some '.'
  let (exponent, cs) := match cs with
    | e :: rest =>
      if (e = 'e' || e = 'E') && !range then
        let (sign, rest) := match rest with
          | s :: after => if s = '+' || s = '-' then ([s], after) else ([], rest)
          | [] => ([], rest)
        let (ds, rest) := rest.span digit
        (e :: sign ++ ds, rest)
      else ([], cs)
    | [] => ([], cs)
  if cs.head?.any isNameChar then none
  else some (String.ofList (lead ++ whole ++ fraction ++ exponent), cs)

def afterComment? : List Char → Option (List Char)
  | [] => none
  | '*' :: '/' :: rest => some rest
  | _ :: rest => afterComment? rest

/-- An operator of punctuation marks, taking a second mark where one can follow. -/
def punctuation? (c : Char) (rest : List Char) : Option (String × List Char) :=
  let pair := fun (second : List Char) => match rest with
    | d :: after => if d ∈ second then (String.ofList [c, d], after) else (c.toString, rest)
    | [] => (c.toString, rest)
  if c ∈ ['&', '!', '=', '*', '<', '>'] then some (pair ['&', '=', '*'])
  else if c = '|' then some (pair ['|'])
  else if c = ':' then some (pair [':'])
  else if c = '?' then some (pair ['.', '?'])
  else if c = '.' then some (pair ['.'])
  else if c ∈ [',', ';', '%', '+', '-', '^', '/'] then some (c.toString, rest)
  else none

def scanWith? : Nat → List Char → Option (List Token)
  | 0, _ => none
  | fuel + 1, cs =>
    match cs with
    | [] => some []
    | c :: rest =>
      let emit := fun t rest => (scanWith? fuel rest).map (t :: ·)
      if Reading.isBlank c then scanWith? fuel rest
      else if c = '"' || c = '\'' then (quoted? c rest).bind fun (b, rest) => emit (text b) rest
      else if c = Char.ofNat 96 then
        let body := rest.takeWhile (· ≠ c)
        match rest.drop body.length with
        | _ :: rest => emit (text (Utf8.ofChars body)) rest
        | [] => none
      else if c.isDigit || (c = '.' && rest.head?.any Char.isDigit) then
        (number? cs).bind fun (s, rest) => emit (number s) rest
      else if c = '/' && rest.head? = some '/' then scanWith? fuel (rest.dropWhile (· ≠ '\n'))
      else if c = '/' && rest.head? = some '*' then (afterComment? (rest.drop 1)).bind (scanWith? fuel)
      else if c ∈ ['(', '[', '\x7b', ')', ']', '\x7d'] then emit (bracket c) rest
      else if isNameChar c then
        let word := cs.takeWhile isNameChar
        emit (ofWord (String.ofList word)) (cs.drop word.length)
      else (punctuation? c rest).bind fun (s, rest) => emit (operator s) rest

/-- The tokens of a query; none if a part of it is no token. -/
def scan? (b : Bytes) : Option (List Token) :=
  let cs := Utf8.chars b
  scanWith? (cs.length + 1) cs

end Token

end Arbor.Query
