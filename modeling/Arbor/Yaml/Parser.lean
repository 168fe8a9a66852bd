import Arbor.Yaml.Node

/-! Anchors, tags and block scalars are refused, and so is a key that is given twice. -/
namespace Arbor.Yaml

/-- A place in a text: its column, and the text from there on. -/
structure Cursor where
  column : Nat
  rest : Bytes

def skipBlank (b : Bytes) : Bytes := b.dropWhile fun c => c = 32 || c = 9

def unifyLines : Bytes → Bytes
  | [] => []
  | 13 :: 10 :: rest => 10 :: unifyLines rest
  | c :: rest => c :: unifyLines rest

/-- Whether a text is at the end of its line, a comment counting as the end. -/
def atLineEnd (b : Bytes) : Bool :=
  match b with
  | [] => true
  | c :: _ => c = 10 || c = 35

def dropLine (b : Bytes) : Bytes := (b.dropWhile (· ≠ 10)).drop 1

/-- The next line that is not empty: where its text starts, from a column of a line that is blank
so far or a comment. -/
def nextLineFrom (column : Nat) (comment : Bool) : Bytes → Cursor
  | [] => ⟨0, []⟩
  | c :: rest =>
    if c = 10 then nextLineFrom 0 false rest
    else if comment then nextLineFrom column true rest
    else if c = 35 then nextLineFrom column true rest
    else if c = 32 then nextLineFrom (column + 1) false rest
    else if c = 9 && atLineEnd (skipBlank rest) then nextLineFrom column false rest
    else ⟨column, c :: rest⟩

def nextLine (b : Bytes) : Cursor := nextLineFrom 0 false b

/-- What follows a finished node: only blanks and a comment may end its line. -/
def finishLine? (b : Bytes) : Option Cursor :=
  let rest := skipBlank b
  if atLineEnd rest && b.head? ≠ some 35 then some (nextLine (dropLine rest)) else none

def atMark (mark : UInt8) (c : Cursor) : Bool :=
  c.column = 0 && [mark, mark, mark].isPrefixOf c.rest &&
    ((c.rest.drop 3).head?.all fun b => b = 32 || b = 9 || b = 10)

def goesOn (c : Cursor) : Bool := c.rest ≠ [] && !atMark 45 c && !atMark 46 c

def codePoint? (digits : Bytes) : Option Nat := Reading.digits? 16 digits

/-- The character of a code point; what is none reads as a replacement character. -/
def encodePoint (n : Nat) : Bytes :=
  Utf8.encode (if n.isValidChar then Char.ofNat n else '\uFFFD')

def pairPoint? (high low : Nat) : Option Nat :=
  if 0xD800 ≤ high ∧ high < 0xDC00 ∧ 0xDC00 ≤ low ∧ low < 0xE000 then
    some (0x10000 + (high - 0xD800) * 0x400 + (low - 0xDC00))
  else none

def shortEscape? (c : UInt8) : Option Bytes :=
  match c with
  | 48 => some [0]
  | 97 => some [7]
  | 98 => some [8]
  | 116 => some [9]
  | 9 => some [9]
  | 110 => some [10]
  | 118 => some [11]
  | 102 => some [12]
  | 114 => some [13]
  | 101 => some [27]
  | 32 => some [32]
  | 34 => some [34]
  | 47 => some [47]
  | 92 => some [92]
  | 78 => some (encodePoint 0x85)
  | 95 => some (encodePoint 0xA0)
  | 76 => some (encodePoint 0x2028)
  | 80 => some (encodePoint 0x2029)
  | _ => none

/-- What line ends inside a scalar read as: one is a blank, each further one a newline. -/
def foldText (blankLines : Nat) : Bytes :=
  if blankLines = 0 then [32] else List.replicate blankLines 10

def isBlank (c : UInt8) : Bool := c = 32 || c = 9

def dropTrailingBlanks (b : Bytes) : Bytes := (b.reverse.dropWhile isBlank).reverse

/-- Where a quoted text stands in its line. -/
inductive Fold where
  | inside
  /-- At the start of a line, after so many blank ones. -/
  | broken (blankLines : Nat)
  /-- At the start of a line that goes on the one before. -/
  | joined
  deriving DecidableEq, Repr

/-- The text so far, reversed, when the line goes on with something that is not blank. -/
def Fold.settle (seen : Bytes) : Fold → Bytes
  | inside => seen
  | broken n => (foldText n).reverse ++ seen
  | joined => seen

/-- A blank inside a text counts, one that starts a line does not. -/
def Fold.blank (c : UInt8) (seen : Bytes) : Fold → Bytes
  | inside => c :: seen
  | _ => seen

def Fold.newline (seen : Bytes) : Fold → Bytes × Fold
  | inside => (seen.dropWhile isBlank, broken 0)
  | broken n => (seen, broken (n + 1))
  | joined => (seen, joined)

/-- A text between double quotes, up to the quote that closes it; `seen` is the text so far,
reversed. -/
def double? (fold : Fold) (seen : Bytes) : Bytes → Option (Bytes × Bytes)
  | [] => none
  | 34 :: rest => some ((fold.settle seen).reverse, rest)
  | 92 :: 120 :: x :: y :: rest => do
    double? .inside ((encodePoint (← codePoint? [x, y])).reverse ++ fold.settle seen) rest
  | 92 :: 117 :: w :: x :: y :: z :: rest => do
    let high ← codePoint? [w, x, y, z]
    let alone := fun (_ : Unit) =>
      double? .inside ((encodePoint high).reverse ++ fold.settle seen) rest
    match rest with
    | 92 :: 117 :: s :: t :: u :: v :: more =>
      match (codePoint? [s, t, u, v]).bind (pairPoint? high) with
      | some n => double? .inside ((encodePoint n).reverse ++ fold.settle seen) more
      | none => alone ()
    | _ => alone ()
  | 92 :: 85 :: s :: t :: u :: v :: w :: x :: y :: z :: rest => do
    let n ← codePoint? [s, t, u, v, w, x, y, z]
    double? .inside ((encodePoint n).reverse ++ fold.settle seen) rest
  | 92 :: 10 :: rest => double? .joined (fold.settle seen) rest
  | 92 :: c :: rest => do
    double? .inside ((← shortEscape? c).reverse ++ fold.settle seen) rest
  | c :: rest =>
    if c = 10 then
      let (seen, fold) := fold.newline seen
      double? fold seen rest
    else if isBlank c then double? fold (fold.blank c seen) rest
    else double? .inside (c :: fold.settle seen) rest

/-- A text between single quotes, in which a doubled quote stands for one. -/
def single? (fold : Fold) (seen : Bytes) : Bytes → Option (Bytes × Bytes)
  | [] => none
  | 39 :: 39 :: rest => single? .inside (39 :: fold.settle seen) rest
  | 39 :: rest => some ((fold.settle seen).reverse, rest)
  | c :: rest =>
    if c = 10 then
      let (seen, fold) := fold.newline seen
      single? fold seen rest
    else if isBlank c then single? fold (fold.blank c seen) rest
    else single? .inside (c :: fold.settle seen) rest

def quoted? (b : Bytes) : Option (Bytes × Bytes) :=
  match b with
  | 34 :: rest => double? .inside [] rest
  | 39 :: rest => single? .inside [] rest
  | _ => none

def atColon (flow : Bool) (b : Bytes) : Bool :=
  match b with
  | 58 :: [] => true
  | 58 :: c :: _ =>
    c = 32 || c = 9 || c = 10 || (flow && (c = 44 || c = 91 || c = 93 || c = 123 || c = 125))
  | _ => false

def isFlowMark (c : UInt8) : Bool := c = 44 || c = 91 || c = 93 || c = 123 || c = 125

/-- The part of a line that is a plain scalar; `afterBlank` tells whether a comment may start. -/
def plainLine (flow : Bool) : Bool → Bytes → Bytes × Bytes
  | _, [] => ([], [])
  | afterBlank, c :: rest =>
    if c = 10 || (c = 35 && afterBlank) || atColon flow (c :: rest) || (flow && isFlowMark c) then
      ([], c :: rest)
    else
      let (text, rest) := plainLine flow (c = 32 || c = 9) rest
      (c :: text, rest)

def startsPlain (c : UInt8) : Bool := c ∉ ("\t,[]\x7b\x7d&*!|>@`%\"'#" : Bytes)

def plainStart? (flow : Bool) (b : Bytes) : Option (Bytes × Bytes) :=
  match b with
  | [] => none
  | c :: rest =>
    let lone := match rest with
      | [] => true
      | d :: _ => d = 32 || d = 9 || d = 10
    if !startsPlain c || (lone && (c = 45 || c = 63 || c = 58)) then none
    else
      let (text, rest) := plainLine flow false b
      some (dropTrailingBlanks text, rest)

def flowSkip (comment : Bool) : Bytes → Bytes
  | [] => []
  | c :: rest =>
    if c = 10 then flowSkip false rest
    else if comment || c = 35 then flowSkip true rest
    else if isBlank c then flowSkip false rest
    else c :: rest

def scalarText? : YamlNode → Option Bytes
  | .plain t => some t
  | .quoted t => some t
  | _ => none

mutual

def flowNode? : Nat → Bytes → Option (YamlNode × Bytes)
  | 0, _ => none
  | fuel + 1, b =>
    match b with
    | 91 :: rest => (flowItems? fuel rest).map fun (ns, rest) => (.sequence ns, rest)
    | 123 :: rest => (flowEntries? fuel [] rest).map fun (es, rest) => (.mapping es, rest)
    | c :: _ =>
      if c = 34 || c = 39 then (quoted? b).map fun (t, rest) => (.quoted t, rest)
      else (flowPlain? fuel b).map fun (t, rest) => (.plain t, rest)
    | [] => none

def flowPlain? : Nat → Bytes → Option (Bytes × Bytes)
  | 0, _ => none
  | fuel + 1, b => do
    let (text, rest) ← plainStart? true b
    match rest with
    | 10 :: more =>
      let next := flowSkip false more
      match next with
      | c :: _ =>
        if isFlowMark c || c = 35 || atColon true next then return (text, rest)
        else
          let (t, rest) ← flowPlain? fuel next
          return (text ++ [32] ++ t, rest)
      | [] => return (text, rest)
    | _ => return (text, rest)

def flowItems? : Nat → Bytes → Option (List YamlNode × Bytes)
  | 0, _ => none
  | fuel + 1, b =>
    match flowSkip false b with
    | 93 :: rest => some ([], rest)
    | b => do
      let (n, rest) ← flowNode? fuel b
      let rest := flowSkip false rest
      let (n, rest) ← if atColon true rest then do
          let key ← scalarText? n
          let (v, rest) ← flowValue? fuel (rest.drop 1)
          pure (YamlNode.mapping [(key, v)], flowSkip false rest)
        else some (n, rest)
      match rest with
      | 44 :: rest =>
        let (ns, rest) ← flowItems? fuel rest
        return (n :: ns, rest)
      | 93 :: rest => return ([n], rest)
      | _ => none

/-- The value after a colon inside a flow collection; it may be missing. -/
def flowValue? : Nat → Bytes → Option (YamlNode × Bytes)
  | 0, _ => none
  | fuel + 1, b =>
    match flowSkip false b with
    | [] => none
    | c :: rest =>
      if c = 44 || c = 93 || c = 125 then some (.plain [], c :: rest)
      else flowNode? fuel (c :: rest)

/-- The entries of a flow mapping up to its brace; the keys so far are known. -/
def flowEntries? : Nat → List Bytes → Bytes → Option (List (Bytes × YamlNode) × Bytes)
  | 0, _, _ => none
  | fuel + 1, keys, b =>
    match flowSkip false b with
    | 125 :: rest => some ([], rest)
    | b => do
      let (k, rest) ← flowNode? fuel b
      let key ← scalarText? k
      if key ∈ keys then none
      else
        let isQuoted := match k with
          | .quoted _ => true
          | _ => false
        let rest := flowSkip false rest
        let (v, rest) ← if atColon true rest || (isQuoted && rest.head? = some 58) then
            flowValue? fuel (rest.drop 1)
          else some (.plain [], rest)
        match flowSkip false rest with
        | 44 :: rest =>
          let (es, rest) ← flowEntries? fuel (key :: keys) rest
          return ((key, v) :: es, rest)
        | 125 :: rest => return ([(key, v)], rest)
        | _ => none

end

def blankLines (b : Bytes) : Nat :=
  ((b.takeWhile fun c => isBlank c || c = 10).filter (· = 10)).length

/-- The further lines of a plain scalar: those indented more than `floor`. -/
def plainMore : Nat → Int → Bytes → Option (Bytes × Cursor)
  | 0, _, _ => none
  | fuel + 1, floor, b =>
    match skipBlank b with
    | 10 :: rest =>
      let c := nextLine rest
      let breaks := blankLines rest
      if goesOn c && floor < c.column && c.rest.head? ≠ some 35 then do
        let (text, rest) := plainLine false true c.rest
        if atColon false rest then none
        else
          let (more, c) ← plainMore fuel floor rest
          return (foldText breaks ++ dropTrailingBlanks text ++ more, c)
      else some ([], c)
    | rest => if atLineEnd rest then some ([], nextLine (dropLine rest)) else none

/-- A key at a cursor and the text after its colon; none if no key stands there. -/
def key? (b : Bytes) : Option (Bytes × Bytes) := do
  let (text, rest) ← match b with
    | c :: _ => if c = 34 || c = 39 then quoted? b else plainStart? false b
    | [] => none
  let rest := skipBlank rest
  if atColon false rest then some (text, rest.drop 1) else none

def atItem (b : Bytes) : Bool :=
  match b with
  | 45 :: [] => true
  | 45 :: c :: _ => c = 32 || c = 9 || c = 10
  | _ => false

mutual

/-- The block node at a cursor; its lines are indented more than `floor`. -/
def blockNode? : Nat → Int → Cursor → Option (YamlNode × Cursor)
  | 0, _, _ => none
  | fuel + 1, floor, c =>
    if atItem c.rest then
      (blockItems? fuel c.column c).map fun (ns, c) => (.sequence ns, c)
    else if (key? c.rest).isSome then
      (blockEntries? fuel c.column [] c).map fun (es, c) => (.mapping es, c)
    else inlineNode? fuel floor c.rest

/-- A scalar or a flow collection that starts here; a plain one may go on in lines below. -/
def inlineNode? : Nat → Int → Bytes → Option (YamlNode × Cursor)
  | 0, _, _ => none
  | fuel + 1, floor, b =>
    match b with
    | [] => none
    | c :: _ =>
      if c = 91 || c = 123 then do
        let (n, rest) ← flowNode? (2 * fuel + 2) b
        return (n, ← finishLine? rest)
      else if c = 34 || c = 39 then do
        let (t, rest) ← quoted? b
        return (.quoted t, ← finishLine? rest)
      else do
        let (t, rest) ← plainStart? false b
        if atColon false rest then none
        else
          let (more, c) ← plainMore (fuel + 1) floor rest
          return (.plain (t ++ more), c)

def blockItems? : Nat → Nat → Cursor → Option (List YamlNode × Cursor)
  | 0, _, _ => none
  | fuel + 1, column, c =>
    if goesOn c && c.column = column && atItem c.rest then do
      let body := skipBlank (c.rest.drop 1)
      let (n, c) ← if atLineEnd body then
          let next := nextLine (dropLine body)
          if goesOn next && column < next.column then blockNode? fuel column next
          else some (.plain [], next)
        else
          let blanks := (c.rest.drop 1).takeWhile isBlank
          blockNode? fuel column ⟨column + 1 + blanks.length, body⟩
      let (ns, c) ← blockItems? fuel column c
      return (n :: ns, c)
    else if goesOn c && column < c.column then none
    else some ([], c)

/-- The entries of a block mapping at a column; the keys so far are known. -/
def blockEntries? : Nat → Nat → List Bytes → Cursor → Option (List (Bytes × YamlNode) × Cursor)
  | 0, _, _, _ => none
  | fuel + 1, column, keys, c =>
    if goesOn c && c.column = column then do
      let (key, rest) ← key? c.rest
      if key ∈ keys then none
      else
        let body := skipBlank rest
        let (v, c) ← if atLineEnd body then
            let next := nextLine (dropLine body)
            if goesOn next && column < next.column then blockNode? fuel column next
            else if goesOn next && next.column = column && atItem next.rest then
              (blockItems? fuel column next).map fun (ns, c) => (.sequence ns, c)
            else some (.plain [], next)
          else inlineNode? fuel column body
        let (es, c) ← blockEntries? fuel column (key :: keys) c
        return ((key, v) :: es, c)
    else if goesOn c && column < c.column then none
    else some ([], c)

end

/-- The first document; an empty one is an empty scalar. -/
def parse? (b : Bytes) : Option YamlNode := do
  let b := unifyLines b
  let c := nextLine b
  let c ← if atMark 45 c then
      let rest := skipBlank (c.rest.drop 3)
      if atLineEnd rest then some (nextLine (dropLine rest))
      else some ⟨4, rest⟩
    else some c
  if !goesOn c then some (.plain [])
  else
    let (n, c) ← blockNode? (2 * b.length + 4) (-1) c
    if goesOn c then none else some n

end Arbor.Yaml
