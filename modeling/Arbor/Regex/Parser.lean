import Arbor.Regex.Basic

/-! Settings in parentheses hold up to the end of the group they stand in. -/
namespace Arbor.Regex

structure Settings where
  fold : Bool := false
  /-- Line anchors match inside the text. -/
  multiline : Bool := false
  /-- A point matches a line end too. -/
  dotAll : Bool := false

namespace Settings

def set (s : Settings) (c : CharSet) : Regex := .set (if s.fold then .folded c else c)

def char (s : Settings) (c : Char) : Regex := s.set (.range c.toNat c.toNat)

end Settings

def isWordChar (c : Char) : Bool := CharSet.word.contains c.toNat

def letterClass? (c : Char) : Option CharSet :=
  match c with
  | 'd' => some .digit
  | 'D' => some (.compl .digit)
  | 's' => some .space
  | 'S' => some (.compl .space)
  | 'w' => some .word
  | 'W' => some (.compl .word)
  | _ => none

def namedClass? (name : String) : Option CharSet :=
  match name with
  | "alnum" => some (.ofRanges [(48, 57), (65, 90), (97, 122)])
  | "alpha" => some (.ofRanges [(65, 90), (97, 122)])
  | "ascii" => some (.range 0 127)
  | "blank" => some (.ofRanges [(9, 9), (32, 32)])
  | "cntrl" => some (.ofRanges [(0, 31), (127, 127)])
  | "digit" => some .digit
  | "graph" => some (.range 33 126)
  | "lower" => some (.range 97 122)
  | "print" => some (.range 32 126)
  | "punct" => some (.ofRanges [(33, 47), (58, 64), (91, 96), (123, 126)])
  | "space" => some (.ofRanges [(9, 13), (32, 32)])
  | "upper" => some (.range 65 90)
  | "word" => some .word
  | "xdigit" => some (.ofRanges [(48, 57), (65, 70), (97, 102)])
  | _ => none

def hexOf? (cs : List Char) : Option Nat :=
  if cs.isEmpty then none
  else cs.foldl (fun acc c => do
    let n ← acc
    let d ← if c.toNat < 128 then Bytes.hexValue? (Bytes.ofChar c) else none
    return 16 * n + d) (some 0)

def ofNumber? (n : Nat) : Option Char := if n ≤ 0x10FFFF then some (Char.ofNat n) else none

def isOctal (c : Char) : Bool := '0' ≤ c && c ≤ '7'

def escaped? : List Char → Option (Char × List Char)
  | [] => none
  | 'x' :: '{' :: rest => do
    let digits := rest.takeWhile (· ≠ '}')
    match rest.drop digits.length with
    | _ :: rest => return (← ofNumber? (← hexOf? digits), rest)
    | [] => none
  | 'x' :: a :: b :: rest => do return (← ofNumber? (← hexOf? [a, b]), rest)
  | 'a' :: rest => some (Char.ofNat 7, rest)
  | 'f' :: rest => some (Char.ofNat 12, rest)
  | 'n' :: rest => some ('\n', rest)
  | 'r' :: rest => some ('\r', rest)
  | 't' :: rest => some ('\t', rest)
  | 'v' :: rest => some (Char.ofNat 11, rest)
  | c :: rest =>
    if isOctal c then
      let more := (rest.take 2).takeWhile isOctal
      if c ≠ '0' && more.isEmpty then none
      else some (Char.ofNat ((c :: more).foldl (fun n d => 8 * n + (d.toNat - 48)) 0),
        rest.drop more.length)
    else if c.toNat < 128 && !c.isAlphanum then some (c, rest)
    else none

def classChar? : List Char → Option (Char × List Char)
  | [] => none
  | '\\' :: rest => escaped? rest
  | c :: rest => some (c, rest)

def namedInClass? (cs : List Char) : Option (Option (CharSet × List Char)) :=
  match cs with
  | '[' :: ':' :: rest =>
    let body := rest.takeWhile (· ≠ ':')
    match rest.drop body.length with
    | ':' :: ']' :: rest =>
      let (negated, name) := match body with
        | '^' :: name => (true, name)
        | name => (false, name)
      (namedClass? (String.ofList name)).map fun s => some (if negated then .compl s else s, rest)
    | _ => some none
  | _ => some none

/-- The items of a class up to its bracket; `first` allows the bracket itself. -/
def classItems? : Nat → Bool → List Char → Option (CharSet × List Char)
  | 0, _, _ => none
  | fuel + 1, first, cs =>
    match cs with
    | [] => none
    | c :: rest => do
      if c = ']' && !first then return (.empty, rest)
      else
        match ← namedInClass? cs with
        | some (s, rest) =>
          let (more, rest) ← classItems? fuel false rest
          return (.union s more, rest)
        | none =>
          let letter := match cs with
            | '\\' :: l :: rest => (letterClass? l).map (·, rest)
            | _ => none
          match letter with
          | some (s, rest) =>
            let (more, rest) ← classItems? fuel false rest
            return (.union s more, rest)
          | none =>
            let (low, rest) ← classChar? cs
            let (high, rest) ← match rest with
              | '-' :: d :: after => if d = ']' then some (low, rest) else classChar? (d :: after)
              | _ => some (low, rest)
            if high < low then none
            else
              let (more, rest) ← classItems? fuel false rest
              return (.union (.range low.toNat high.toNat) more, rest)

def class? (s : Settings) (cs : List Char) : Option (Regex × List Char) := do
  let (negated, cs) := match cs with
    | '^' :: rest => (true, rest)
    | _ => (false, cs)
  let (c, rest) ← classItems? (cs.length + 1) true cs
  let c := if s.fold then .folded c else c
  return (.set (if negated then .compl c else c), rest)

/-- The bounds of a counted repetition after its brace; none if it is not one. -/
def bounds? (cs : List Char) : Option (Nat × Option Nat × List Char) := do
  let number := fun cs : List Char =>
    let ds := cs.takeWhile Char.isDigit
    if ds.isEmpty || (ds.head? = some '0' && 1 < ds.length) then none
    else some (ds.foldl (fun n d => min 1000000 (10 * n + (d.toNat - 48))) 0, cs.drop ds.length)
  let (least, cs) ← number cs
  match cs with
  | '}' :: rest => return (least, some least, rest)
  | ',' :: '}' :: rest => return (least, none, rest)
  | ',' :: rest =>
    let (most, cs) ← number rest
    match cs with
    | '}' :: rest => return (least, some most, rest)
    | _ => none
  | _ => none

/-- The greatest number of times a repetition may count, nested ones multiplied. -/
def maxRepeat : Nat := 1000

/-- How often nested counted repetitions repeat what is inside them. -/
def weight : Regex → Nat
  | seq a b => max (weight a) (weight b)
  | alt a b => max (weight a) (weight b)
  | rep least most a =>
    let n := most.getD least
    if n ≤ 1 then weight a else n * weight a
  | _ => 1

/-- The repetition mark at the start, if there is one: its bounds, whether it counts and the rest. -/
def mark? (cs : List Char) : Option (Nat × Option Nat × Bool × List Char) :=
  match cs with
  | '*' :: rest => some (0, none, false, rest)
  | '+' :: rest => some (1, none, false, rest)
  | '?' :: rest => some (0, some 1, false, rest)
  | '{' :: rest => (bounds? rest).map fun (least, most, rest) => (least, most, true, rest)
  | _ => none

def repeated? (atom : Regex) (cs : List Char) : Option (Regex × List Char) :=
  match mark? cs with
  | none => some (atom, cs)
  | some (least, most, counted, rest) =>
    let rest := match rest with
      | '?' :: after => after
      | _ => rest
    let r := rep least most atom
    if counted && (maxRepeat < least || most.any (fun n => maxRepeat < n || n < least) ||
        maxRepeat < r.weight) then none
    else if (mark? rest).isSome then none
    else some (r, rest)

/-- Settings switched on, or off after a minus sign, up to a colon or parenthesis. -/
def settings? (s : Settings) (on : Bool) (any : Bool) : List Char → Option (Settings × List Char)
  | [] => none
  | c :: rest =>
    match c with
    | 'i' => settings? { s with fold := on } on true rest
    | 'm' => settings? { s with multiline := on } on true rest
    | 's' => settings? { s with dotAll := on } on true rest
    | 'U' => settings? s on true rest
    | '-' => if on then settings? s false false rest else none
    | ':' => if on || any then some (s, c :: rest) else none
    | ')' => if on || any then some (s, c :: rest) else none
    | _ => none

def groupName? (cs : List Char) : Option (List Char × List Char) :=
  let name := cs.takeWhile (· ≠ '>')
  if name.isEmpty || !name.all isWordChar then none
  else match cs.drop name.length with
    | _ :: rest => some (name, rest)
    | [] => none

structure Context where
  settings : Settings := {}
  names : List (List Char) := []

def quotedChars (s : Settings) : List Char → Option Regex
  | [] => none
  | '\\' :: 'E' :: _ => none
  | c :: rest =>
    match quotedChars s rest with
    | none => some (s.char c)
    | some r => some (.seq (s.char c) r)

def afterQuoted : List Char → List Char
  | [] => []
  | '\\' :: 'E' :: rest => rest
  | _ :: rest => afterQuoted rest

mutual

def alternatives? : Nat → Context → List Char → Option (Regex × Context × List Char)
  | 0, _, _ => none
  | fuel + 1, ctx, cs => do
    let (a, ctx, rest) ← sequence? fuel ctx cs
    match rest with
    | '|' :: rest =>
      let (b, ctx, rest) ← alternatives? fuel ctx rest
      return (.alt a b, ctx, rest)
    | _ => return (a, ctx, rest)

def sequence? : Nat → Context → List Char → Option (Regex × Context × List Char)
  | 0, _, _ => none
  | fuel + 1, ctx, cs =>
    match cs with
    | [] => some (.empty, ctx, [])
    | c :: rest => do
      if c = '|' || c = ')' then return (.empty, ctx, cs)
      else
        let (atom, ctx, rest) ← atom? fuel ctx c rest
        let (r, rest) ← match atom with
          | some atom => repeated? atom rest
          | none => if (mark? rest).isSome then none else some (.empty, rest)
        let (more, ctx, rest) ← sequence? fuel ctx rest
        return (.seq r more, ctx, rest)

/-- An atom that starts with a character; settings alone are none. -/
def atom? : Nat → Context → Char → List Char → Option (Option Regex × Context × List Char)
  | 0, _, _, _ => none
  | fuel + 1, ctx, c, rest =>
    let s := ctx.settings
    match c with
    | '(' => group? fuel ctx rest
    | '[' => (class? s rest).map fun (r, rest) => (some r, ctx, rest)
    | '.' =>
      let any : CharSet := if s.dotAll then .range 0 0x10FFFF else .compl (.range 10 10)
      some (some (.set any), ctx, rest)
    | '^' => some (some (if s.multiline then .lineStart else .textStart), ctx, rest)
    | '$' => some (some (if s.multiline then .lineEnd else .textEnd), ctx, rest)
    | '\\' =>
      match rest with
      | [] => none
      | 'A' :: rest => some (some .textStart, ctx, rest)
      | 'z' :: rest => some (some .textEnd, ctx, rest)
      | 'b' :: rest => some (some (.wordEdge false), ctx, rest)
      | 'B' :: rest => some (some (.wordEdge true), ctx, rest)
      | 'Q' :: rest => some (quotedChars s rest, ctx, afterQuoted rest)
      | l :: after =>
        match letterClass? l with
        | some letters => some (some (s.set letters), ctx, after)
        | none => (escaped? (l :: after)).map fun (c, rest) => (some (s.char c), ctx, rest)
    | _ => if (mark? (c :: rest)).isSome then none else some (some (s.char c), ctx, rest)

def group? : Nat → Context → List Char → Option (Option Regex × Context × List Char)
  | 0, _, _ => none
  | fuel + 1, ctx, cs => do
    let inside := fun (inner : Context) (cs : List Char) => do
      let (r, after, rest) ← alternatives? fuel inner cs
      match rest with
      | ')' :: rest => return (some r, { ctx with names := after.names }, rest)
      | _ => none
    let named := fun (rest : List Char) => do
      let (name, rest) ← groupName? rest
      if name ∈ ctx.names then none
      else inside { ctx with names := name :: ctx.names } rest
    match cs with
    | '?' :: 'P' :: '<' :: rest => named rest
    | '?' :: '<' :: rest => named rest
    | '?' :: rest =>
      let (s, rest) ← settings? ctx.settings true false rest
      match rest with
      | ':' :: rest => inside { ctx with settings := s } rest
      | _ :: rest => return (none, { ctx with settings := s }, rest)
      | [] => none
    | _ => inside ctx cs

end

def parse? (b : Bytes) : Option Regex :=
  let cs := Utf8.chars b
  if !Utf8.isValid b then none
  else match alternatives? (3 * cs.length + 3) {} cs with
    | some (r, _, []) => some r
    | _ => none

end Arbor.Regex
