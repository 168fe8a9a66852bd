import Arbor.Toml.Value

/-! A text is a list of lines, each empty or with one statement. -/
namespace Arbor.Toml

def isControl (c : UInt8) : Bool := (c < 0x20 && c != 9) || c = 0x7F

def skipBlank (b : Bytes) : Bytes := b.dropWhile fun c => c = 32 || c = 9

/-- The line end at the start; the end of the text is none. -/
def newline? : Bytes → Option Bytes
  | 10 :: rest => some rest
  | 13 :: 10 :: rest => some rest
  | _ => none

def comment? (b : Bytes) : Option Bytes :=
  let (body, rest) := b.span (· ≠ 10)
  let body := if body.getLast? = some 13 && rest ≠ [] then body.dropLast else body
  if body.any isControl || !Utf8.isValid body then none
  else some rest

def character? (digits : Bytes) : Option Bytes := do
  let n ← Reading.digits? 16 digits
  if n < 0xD800 ∨ (0xE000 ≤ n ∧ n < 0x110000) then some (Utf8.encode (Char.ofNat n)) else none

def shortEscape? (c : UInt8) : Option UInt8 :=
  match c with
  | 34 => some 34
  | 92 => some 92
  | 98 => some 8
  | 101 => some 27
  | 102 => some 12
  | 110 => some 10
  | 114 => some 13
  | 116 => some 9
  | _ => none

def basic? : Bytes → Option (Bytes × Bytes)
  | [] => none
  | 34 :: rest => some ([], rest)
  | 92 :: 117 :: a :: b :: c :: d :: rest => do
    let ch ← character? [a, b, c, d]
    let (text, after) ← basic? rest
    return (ch ++ text, after)
  | 92 :: 85 :: a :: b :: c :: d :: e :: f :: g :: h :: rest => do
    let ch ← character? [a, b, c, d, e, f, g, h]
    let (text, after) ← basic? rest
    return (ch ++ text, after)
  | 92 :: c :: rest => do
    let ch ← shortEscape? c
    let (text, after) ← basic? rest
    return (ch :: text, after)
  | c :: rest =>
    if isControl c then none
    else do
      let (text, after) ← basic? rest
      return (c :: text, after)

def literal? : Bytes → Option (Bytes × Bytes)
  | [] => none
  | 39 :: rest => some ([], rest)
  | c :: rest =>
    if isControl c then none
    else do
      let (text, after) ← literal? rest
      return (c :: text, after)

def threeQuotes (quote : UInt8) (b : Bytes) : Bool := [quote, quote, quote].isPrefixOf b

/-- The raw text of several lines up to three quotes; up to two more belong to the text. -/
def longRaw? (quote : UInt8) (escapes : Bool) : Bytes → Option (Bytes × Bytes)
  | [] => none
  | c :: rest =>
    if c = quote && threeQuotes quote (c :: rest) then
      let more := (rest.drop 2).takeWhile (· = quote)
      if more.length ≤ 2 then some (more, (rest.drop 2).drop more.length) else none
    else if c = 92 && escapes then
      match rest with
      | [] => none
      | d :: rest => do
        let (text, after) ← longRaw? quote escapes rest
        return (c :: d :: text, after)
    else if c = 13 && rest.head? ≠ some 10 then none
    else if isControl c && c != 10 && c != 13 then none
    else do
      let (text, after) ← longRaw? quote escapes rest
      return (c :: text, after)

def dropFirstNewline (b : Bytes) : Bytes := (newline? b).getD b

/-- Whether only blanks stand before the next line end. -/
def endsLine (b : Bytes) : Bool :=
  (newline? (b.dropWhile fun c => c = 32 || c = 9)).isSome

def isSpace (c : UInt8) : Bool := c = 32 || c = 9 || c = 10 || c = 13

/-- The text of several lines with its escapes resolved; `skipping` drops blanks and line ends. -/
def unescape? (skipping : Bool) : Bytes → Option Bytes
  | [] => some []
  | 92 :: 117 :: a :: b :: c :: d :: rest => do
    return (← character? [a, b, c, d]) ++ (← unescape? false rest)
  | 92 :: 85 :: a :: b :: c :: d :: e :: f :: g :: h :: rest => do
    return (← character? [a, b, c, d, e, f, g, h]) ++ (← unescape? false rest)
  | 92 :: c :: rest =>
    if endsLine (c :: rest) then unescape? true rest
    else do return (← shortEscape? c) :: (← unescape? false rest)
  | c :: rest =>
    if skipping && isSpace c then unescape? true rest
    else (unescape? false rest).map (c :: ·)

def text? (long : Bool) (b : Bytes) : Option (Bytes × Bytes) := do
  let (text, rest) ← match b with
    | 34 :: rest =>
      if long && threeQuotes 34 b then do
        let (raw, rest) ← longRaw? 34 true (rest.drop 2)
        let text ← unescape? false (dropFirstNewline raw)
        pure (text, rest)
      else basic? rest
    | 39 :: rest =>
      if long && threeQuotes 39 b then do
        let (raw, rest) ← longRaw? 39 false (rest.drop 2)
        pure (dropFirstNewline raw, rest)
      else literal? rest
    | _ => none
  if Utf8.isValid text then some (text, rest) else none

def isBare (c : UInt8) : Bool :=
  Bytes.isDigit c || (65 ≤ c && c ≤ 90) || (97 ≤ c && c ≤ 122) || c = 45 || c = 95

def keyPart? (b : Bytes) : Option (Bytes × Bytes) :=
  match b with
  | [] => none
  | c :: _ =>
    if c = 34 || c = 39 then text? false b
    else if isBare c then some (b.span isBare)
    else none

def key? : Nat → Bytes → Option (List Bytes × Bytes)
  | 0, _ => none
  | fuel + 1, b => do
    let (part, rest) ← keyPart? b
    match skipBlank rest with
    | 46 :: rest =>
      let (parts, rest) ← key? fuel (skipBlank rest)
      return (part :: parts, rest)
    | rest => return ([part], rest)

def after? (w : String) (b : Bytes) : Option Bytes :=
  let w := Bytes.ofString w
  if w.isPrefixOf b then some (b.drop w.length) else none

/-- Whether a text starts like a date or a time rather than a number. -/
def startsMoment (b : Bytes) : Bool :=
  let head := b.takeWhile Bytes.isDigit
  let next := b.drop head.length
  (head.length = 2 && next.head? = some 58) || (head.length = 4 && next.head? = some 45)

/-- The bytes of a date, a time or both with a blank between them. -/
def momentText : Bool → Bytes → Bytes × Bytes
  | _, [] => ([], [])
  | spaced, 32 :: d :: rest =>
    if !spaced && Bytes.isDigit d then
      let (text, rest) := momentText true rest
      (32 :: d :: text, rest)
    else ([], 32 :: d :: rest)
  | spaced, c :: rest =>
    if Bytes.isDigit c || c ∈ (".:+-TtZz" : Bytes) then
      let (text, rest) := momentText spaced rest
      (c :: text, rest)
    else ([], c :: rest)

def isBaseDigit (mark : UInt8) (c : UInt8) : Bool :=
  c = 95 || (Bytes.hexValue? c).any fun d =>
    d < (if mark = 120 then 16 else if mark = 111 then 8 else 2)

def isNumeric (c : UInt8) : Bool :=
  Bytes.isDigit c || c = 43 || c = 45 || c = 95 || c = 46 || c = 101 || c = 69

/-- A number: its text, cut where it can no longer be one. -/
def number? (b : Bytes) : Option (TomlValue × Bytes) :=
  match b with
  | 48 :: mark :: next :: rest =>
    if mark = 120 || mark = 111 || mark = 98 then
      let digits := (next :: rest).takeWhile (isBaseDigit mark)
      some (.integer (48 :: mark :: digits), (next :: rest).drop digits.length)
    else if mark ≠ 46 && mark ≠ 101 && mark ≠ 69 then some (.integer [48], mark :: next :: rest)
    else decimal (b.takeWhile isNumeric)
  | _ => decimal (b.takeWhile isNumeric)
where
  decimal (text : Bytes) : Option (TomlValue × Bytes) :=
    let rest := b.drop text.length
    match after? "inf" rest <|> after? "nan" rest with
    | some after => some (.float (text ++ rest.take 3), after)
    | none =>
      if text = [] then none
      else if text.any fun c => c = 46 || c = 101 || c = 69 then some (.float text, rest)
      else some (.integer text, rest)

/-- Blanks, line ends and comments between the items of an array; `fuel` bounds the lines. -/
def skipLines? : Nat → Bytes → Option Bytes
  | 0, _ => none
  | fuel + 1, b =>
    match skipBlank b with
    | 35 :: rest => (comment? rest).bind (skipLines? fuel)
    | rest =>
      match rest with
      | [] => some []
      | 10 :: rest => skipLines? fuel rest
      | 13 :: rest => (newline? (13 :: rest)).bind (skipLines? fuel)
      | _ => some rest

mutual

def value? : Nat → Bytes → Option (TomlValue × Bytes)
  | 0, _ => none
  | fuel + 1, b =>
    match b with
    | [] => none
    | c :: rest =>
      if c = 34 || c = 39 then (text? true b).map fun (t, rest) => (.string t, rest)
      else if c = 116 then (after? "true" b).map (.bool true, ·)
      else if c = 102 then (after? "false" b).map (.bool false, ·)
      else if c = 91 then (items? fuel true rest).map fun (vs, rest) => (.array vs, rest)
      else if c = 123 then (entries? fuel true rest).map fun (es, rest) => (.table es, rest)
      else if startsMoment b then
        let (text, rest) := momentText false b
        some (.moment text, rest)
      else number? b

def items? : Nat → Bool → Bytes → Option (List TomlValue × Bytes)
  | 0, _, _ => none
  | fuel + 1, first, b => do
    let b ← skipLines? (fuel + 1) b
    match b with
    | 93 :: rest => return ([], rest)
    | c :: rest =>
      let b ← if c = 44 then if first then none else skipLines? (fuel + 1) rest
        else if first then some b else none
      match b with
      | 93 :: rest => return ([], rest)
      | _ =>
        let (v, rest) ← value? fuel b
        let (vs, rest) ← items? fuel false rest
        return (v :: vs, rest)
    | [] => none

/-- The entries of a table in braces, on one line. -/
def entries? : Nat → Bool → Bytes → Option (List (List Bytes × TomlValue) × Bytes)
  | 0, _, _ => none
  | fuel + 1, first, b => do
    match skipBlank b with
    | 125 :: rest => return ([], rest)
    | b =>
      let b ← if first then some b
        else match b with
          | 44 :: rest => some (skipBlank rest)
          | _ => none
      let (key, rest) ← key? (fuel + 1) b
      match rest with
      | 61 :: rest =>
        let (v, rest) ← value? fuel (skipBlank rest)
        let (es, rest) ← entries? fuel false rest
        return ((key, v) :: es, rest)
      | _ => none

end

def header? (fuel : Nat) (b : Bytes) : Option (TomlStatement × Bytes) := do
  match b with
  | 91 :: 91 :: rest =>
    let (key, rest) ← key? fuel (skipBlank rest)
    return (.item key, ← after? "]]" rest)
  | 91 :: rest =>
    let (key, rest) ← key? fuel (skipBlank rest)
    return (.table key, ← after? "]" rest)
  | _ => none

def assignment? (fuel : Nat) (b : Bytes) : Option (TomlStatement × Bytes) := do
  let (key, rest) ← key? fuel b
  match rest with
  | 61 :: rest =>
    let (v, rest) ← value? (2 * fuel + 2) (skipBlank rest)
    return (.assign key v, rest)
  | _ => none

/-- What a line ends with after its statement: blanks, a comment, the line end or nothing. -/
def lineEnd? (b : Bytes) : Option Bytes := do
  let rest ← match skipBlank b with
    | 35 :: rest => comment? rest
    | rest => some rest
  match rest with
  | [] => some []
  | _ => newline? rest

def statementsWith? : Nat → Bytes → Option (List TomlStatement)
  | 0, _ => none
  | fuel + 1, b =>
    match skipBlank b with
    | [] => some []
    | c :: rest =>
      if c = 35 || c = 10 || c = 13 then (lineEnd? (c :: rest)).bind (statementsWith? fuel)
      else do
        let (s, rest) ← if c = 91 then header? (fuel + 1) (c :: rest)
          else assignment? (fuel + 1) (c :: rest)
        let rest ← lineEnd? rest
        let ss ← statementsWith? fuel rest
        return s :: ss

def statements? (b : Bytes) : Option (List TomlStatement) := statementsWith? (b.length + 1) b

end Arbor.Toml
