import Arbor.Codec.Record

/-! XML elements with their attributes; everything else is checked and passed over. -/
namespace Arbor

/-- An element by its local name, with the attributes by theirs, in order. -/
inductive XmlElement where
  | mk (name : Bytes) (attributes : List (Bytes × Bytes)) (children : List XmlElement)
  deriving Inhabited, Repr

namespace XmlElement

def escapeChar (c : Char) : Bytes :=
  match c with
  | '"' => Bytes.ofString "&#34;"
  | '\'' => Bytes.ofString "&#39;"
  | '&' => Bytes.ofString "&amp;"
  | '<' => Bytes.ofString "&lt;"
  | '>' => Bytes.ofString "&gt;"
  | '\t' => Bytes.ofString "&#x9;"
  | '\n' => Bytes.ofString "&#xA;"
  | '\r' => Bytes.ofString "&#xD;"
  | c => Utf8.encode c

def escape (b : Bytes) : Bytes := (Utf8.chars b).flatMap escapeChar

/-- The parts between separators; one part if there is none. -/
def split (sep : UInt8) : Bytes → List Bytes
  | [] => [[]]
  | b :: rest =>
    match split sep rest with
    | [] => [[b]]
    | p :: ps => if b = sep then [] :: p :: ps else (b :: p) :: ps

def normalizeLines : Bytes → Bytes
  | 13 :: 10 :: rest => 10 :: normalizeLines rest
  | 13 :: rest => 10 :: normalizeLines rest
  | b :: rest => b :: normalizeLines rest
  | [] => []

/-- The character of a number; a surrogate gives the replacement character. -/
def numbered (n : Nat) : Char := if 0xD800 ≤ n ∧ n < 0xE000 then '\uFFFD' else Char.ofNat n

def digitsValue? (base : Nat) (b : Bytes) : Option Nat :=
  if b = [] then none
  else b.foldl (fun acc x => do
    let n ← acc
    let d ← Bytes.hexValue? x
    if d < base then some (base * n + d) else none) (some 0)

/-- What stands between an ampersand and a semicolon. -/
def entity? (b : Bytes) : Option Bytes :=
  match b with
  | 35 :: 120 :: digits => do
    let n ← digitsValue? 16 digits
    if n ≤ 0x10FFFF then return Utf8.encode (numbered n) else none
  | 35 :: digits => do
    let n ← digitsValue? 10 digits
    if n ≤ 0x10FFFF then return Utf8.encode (numbered n) else none
  | name =>
    if name = Bytes.ofString "lt" then some [60]
    else if name = Bytes.ofString "gt" then some [62]
    else if name = Bytes.ofString "amp" then some [38]
    else if name = Bytes.ofString "apos" then some [39]
    else if name = Bytes.ofString "quot" then some [34]
    else none

/-- The parts after ampersands, each an entity and plain text. -/
def expand : List Bytes → Option Bytes
  | [] => some []
  | part :: parts =>
    match Bytes.cut 59 part with
    | (_, none) => none
    | (name, some plain) => do
      let e ← entity? name
      let rest ← expand parts
      return e ++ normalizeLines plain ++ rest

def isText (b : Bytes) : Bool := Utf8.isValid b && (Utf8.chars b).all isXmlChar

def unescape? (raw : Bytes) : Option Bytes :=
  if Bytes.hasPart (Bytes.ofString "]]>") raw then none
  else match split 38 raw with
    | [] => some []
    | first :: parts => do
      let rest ← expand parts
      let text := normalizeLines first ++ rest
      if isText text then return text else none

def isSpace (b : UInt8) : Bool := b = 32 || b = 9 || b = 10 || b = 13

def skipSpace (b : Bytes) : Bytes := b.dropWhile isSpace

def isNameByte (b : UInt8) : Bool :=
  (65 ≤ b && b ≤ 90) || (97 ≤ b && b ≤ 122) || (48 ≤ b && b ≤ 57) || b = 95 || b = 58 || b = 46 ||
    b = 45 || 0x80 ≤ b

def isNameStart : Bytes → Bool
  | [] => false
  | b :: _ => !((48 ≤ b && b ≤ 57) || b = 46 || b = 45)

def name? (b : Bytes) : Option (Bytes × Bytes) :=
  let (name, rest) := b.span isNameByte
  if isNameStart name && rest ≠ [] && Utf8.isValid name then some (name, rest) else none

/-- A name with at most one colon. -/
def qualified? (b : Bytes) : Option (Bytes × Bytes) := do
  let (name, rest) ← name? b
  if 1 < name.count 58 then none else return (name, rest)

def localName (name : Bytes) : Bytes :=
  match Bytes.cut 58 name with
  | (space, some base) => if space = [] ∨ base = [] then name else base
  | (_, none) => name

def attributeValue? : Bytes → Option (Bytes × Bytes)
  | [] => none
  | quote :: b =>
    if quote = 34 || quote = 39 then
      let (raw, rest) := b.span (· ≠ quote)
      match rest with
      | [] => none
      | _ :: rest =>
        if raw.elem 60 then none
        else (unescape? raw).map fun text => (text, rest)
    else none

/-- The rest of a start tag: its attributes, whether it ends the element, and what follows. -/
def attributes? : Nat → Bytes → Option (List (Bytes × Bytes) × Bool × Bytes)
  | 0, _ => none
  | fuel + 1, b =>
    match skipSpace b with
    | 47 :: 62 :: rest => some ([], true, rest)
    | 62 :: rest => some ([], false, rest)
    | b => do
      let (name, b) ← qualified? b
      match skipSpace b with
      | 61 :: b =>
        let (value, b) ← attributeValue? (skipSpace b)
        let (more, closed, rest) ← attributes? fuel b
        return ((localName name, value) :: more, closed, rest)
      | _ => none

/-- What follows the first occurrence of a part, and what precedes it. -/
def find? (part : Bytes) : Bytes → Option (Bytes × Bytes)
  | [] => none
  | b :: rest =>
    if part.isPrefixOf (b :: rest) then some ([], (b :: rest).drop part.length)
    else (find? part rest).map fun (before, after) => (b :: before, after)

/-- The value of a parameter of the XML declaration; empty if there is none. -/
def parameter (key : Bytes) : Nat → Bytes → Bytes
  | 0, _ => []
  | fuel + 1, b =>
    match find? (key ++ [61]) b with
    | none => []
    | some (_, []) => []
    | some (_, quote :: rest) =>
      if quote = 34 || quote = 39 then
        match Bytes.cut quote rest with
        | (value, some _) => value
        | (_, none) => []
      else parameter key fuel rest

/-- Whether the declaration asks for this version and for UTF-8, or for nothing. -/
def isDeclaration (content : Bytes) : Bool :=
  let version := parameter "version" content.length content
  let encoding := parameter "encoding" content.length content
  (version = [] || version = Bytes.ofString "1.0") &&
    (encoding = [] || encoding.map (fun c => if 65 ≤ c && c ≤ 90 then c + 32 else c) =
      Bytes.ofString "utf-8")

def skipInstruction? (b : Bytes) : Option Bytes := do
  let (target, b) ← name? b
  let (content, rest) ← find? (Bytes.ofString "?>") (skipSpace b)
  if target = Bytes.ofString "xml" && !isDeclaration content then none else return rest

/-- What follows a comment, after its opening; two hyphens must end it. -/
def skipComment? (b : Bytes) : Option Bytes := do
  let (_, rest) ← find? (Bytes.ofString "--") b
  match rest with
  | 62 :: rest => return rest
  | _ => none

/-- What follows a declaration inside angle brackets, which may be nested. -/
def skipDirective? : Nat → Option UInt8 → Nat → Bytes → Option Bytes
  | 0, _, _, _ => none
  | _, _, _, [] => none
  | fuel + 1, some quote, depth, b :: rest =>
    skipDirective? fuel (if b = quote then none else some quote) depth rest
  | fuel + 1, none, depth, b :: rest =>
    if b = 62 then
      match depth with
      | 0 => some rest
      | depth + 1 => skipDirective? fuel none depth rest
    else if b = 34 || b = 39 then skipDirective? fuel (some b) depth rest
    else if b = 60 then
      if (Bytes.ofString "!--").isPrefixOf rest then
        match find? (Bytes.ofString "-->") (rest.drop 3) with
        | some (_, rest) => skipDirective? fuel none depth rest
        | none => none
      else skipDirective? fuel none (depth + 1) rest
    else skipDirective? fuel none depth rest

/-- What follows markup that starts with an exclamation mark, after the mark. -/
def skipMarkup? (b : Bytes) : Option Bytes :=
  match b with
  | 45 :: 45 :: rest => skipComment? rest
  | 45 :: _ => none
  | 91 :: rest =>
    let cdata := Bytes.ofString "CDATA["
    if cdata.isPrefixOf rest then do
      let (content, rest) ← find? (Bytes.ofString "]]>") (rest.drop cdata.length)
      if isText content then return rest else none
    else none
  | _ :: rest => skipDirective? (rest.length + 1) none 0 rest
  | [] => none

def skipText? (b : Bytes) : Option Bytes :=
  let (raw, rest) := b.span (· ≠ 60)
  (unescape? raw).map fun _ => rest

mutual

/-- The element whose start tag comes next, after its angle bracket. -/
def element? : Nat → Bytes → Option (XmlElement × Bytes)
  | 0, _ => none
  | fuel + 1, b => do
    let (name, b) ← qualified? b
    let (attributes, closed, b) ← attributes? (fuel + 1) b
    if closed then return (mk (localName name) attributes [], b)
    else
      let (children, rest) ← content? fuel name b
      return (mk (localName name) attributes children, rest)

/-- The elements up to the end tag with a name. -/
def content? : Nat → Bytes → Bytes → Option (List XmlElement × Bytes)
  | 0, _, _ => none
  | fuel + 1, name, b =>
    match b with
    | [] => none
    | 60 :: 47 :: b => do
      let (closing, b) ← qualified? b
      match skipSpace b with
      | 62 :: rest => if closing = name then return ([], rest) else none
      | _ => none
    | 60 :: 63 :: b => do content? fuel name (← skipInstruction? b)
    | 60 :: 33 :: b => do content? fuel name (← skipMarkup? b)
    | 60 :: b => do
      let (child, b) ← element? fuel b
      let (more, rest) ← content? fuel name b
      return (child :: more, rest)
    | b => do content? fuel name (← skipText? b)

end

def prolog? : Nat → Bytes → Option XmlElement
  | 0, _ => none
  | fuel + 1, b =>
    match b with
    | [] => none
    | 60 :: 47 :: _ => none
    | 60 :: 63 :: b => do prolog? fuel (← skipInstruction? b)
    | 60 :: 33 :: b => do prolog? fuel (← skipMarkup? b)
    | 60 :: b => (element? (2 * b.length + 2) b).map Prod.fst
    | b => do prolog? fuel (← skipText? b)

def parse? (b : Bytes) : Option XmlElement := prolog? (b.length + 1) b

end XmlElement

end Arbor
