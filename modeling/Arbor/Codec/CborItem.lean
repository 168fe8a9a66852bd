import Arbor.Text.Utf8
import Arbor.Number.Binary64

/-! The generic data model of RFC 8949. -/
namespace Arbor

inductive CborItem where
  | unsigned (n : Nat)
  /-- The integer `-1 - n`. -/
  | negative (n : Nat)
  | bytes (chunks : List Bytes)
  | text (chunks : List Bytes)
  | array (items : List CborItem)
  | map (entries : List (CborItem × CborItem))
  | tag (number : Nat) (item : CborItem)
  | simple (n : Nat)
  | float (x : Binary64)
  deriving Inhabited, Repr

namespace CborItem

/-- Readers refuse longer arrays and maps. -/
def maxCount : Nat := 131072

/-- Readers refuse deeper nesting. -/
def maxNesting : Nat := 65535

def bigEndian (width n : Nat) : Bytes :=
  (List.range width).map fun i => (n / 256 ^ (width - 1 - i) % 256).toUInt8

def ofBigEndian (b : Bytes) : Nat := b.foldl (fun n x => 256 * n + x.toNat) 0

/-- The initial byte and the argument in the fewest bytes. -/
def head (major n : Nat) : Bytes :=
  let initial := fun info : Nat => (32 * major + info).toUInt8
  if n < 24 then [initial n]
  else if n < 2 ^ 8 then initial 24 :: bigEndian 1 n
  else if n < 2 ^ 16 then initial 25 :: bigEndian 2 n
  else if n < 2 ^ 32 then initial 26 :: bigEndian 4 n
  else initial 27 :: bigEndian 8 n

/-- An initial byte, its argument and what follows; no argument stands for indefinite length. -/
structure Head where
  major : Nat
  info : Nat
  argument : Option Nat
  rest : Bytes

def readHead? : Bytes → Option Head
  | [] => none
  | b :: rest =>
    let major := b.toNat / 32
    let info := b.toNat % 32
    let wide (width : Nat) : Option Head :=
      (Bytes.splitAt? width rest).map fun (word, rest) => ⟨major, info, some (ofBigEndian word), rest⟩
    if info < 24 then some ⟨major, info, some info, rest⟩
    else match info with
      | 24 => wide 1
      | 25 => wide 2
      | 26 => wide 4
      | 27 => wide 8
      | 31 => some ⟨major, info, none, rest⟩
      | _ => none

/-- A binary number of fewer bits: fields of `exponentBits` and `fractionBits`, exactly. -/
def widen (exponentBits fractionBits bits : Nat) : Binary64 :=
  let negative := bits / 2 ^ (exponentBits + fractionBits) % 2 = 1
  let exponent := bits / 2 ^ fractionBits % 2 ^ exponentBits
  let fraction := bits % 2 ^ fractionBits
  let bias := 2 ^ (exponentBits - 1) - 1
  if exponent = 2 ^ exponentBits - 1 then
    if fraction = 0 then Binary64.infinity negative else Binary64.nan
  else
    let m := if exponent = 0 then fraction else 2 ^ fractionBits + fraction
    let power := max exponent 1
    (Binary64.ofRatio? negative (m * 2 ^ power) (2 ^ (bias + fractionBits))).getD .zero

def simpleOrFloat? (info n : Nat) : Option CborItem :=
  match info with
  | 24 => if n < 32 then none else some (simple n)
  | 25 => some (float (widen 5 10 n))
  | 26 => some (float (widen 8 23 n))
  | 27 => some (float ⟨n.toUInt64⟩)
  | _ => some (simple n)

def readChunks (major : Nat) : Nat → Bytes → Option (List Bytes × Bytes)
  | 0, _ => none
  | _, 0xFF :: rest => some ([], rest)
  | fuel + 1, b => do
    let h ← readHead? b
    if h.major ≠ major then none
    else
      let n ← h.argument
      let (chunk, rest) ← Bytes.splitAt? n h.rest
      let (chunks, rest) ← readChunks major fuel rest
      return (chunk :: chunks, rest)

mutual

/-- An item below `level` arrays, maps and tags, and what follows it. -/
def read : Nat → Nat → Bytes → Option (CborItem × Bytes)
  | 0, _, _ => none
  | fuel + 1, level, b => do
    let h ← readHead? b
    match h.major, h.argument with
    | 0, some n => return (unsigned n, h.rest)
    | 1, some n => return (negative n, h.rest)
    | 2, some n =>
      let (content, rest) ← Bytes.splitAt? n h.rest
      return (bytes [content], rest)
    | 2, none =>
      let (chunks, rest) ← readChunks 2 fuel h.rest
      return (bytes chunks, rest)
    | 3, some n =>
      let (content, rest) ← Bytes.splitAt? n h.rest
      return (text [content], rest)
    | 3, none =>
      let (chunks, rest) ← readChunks 3 fuel h.rest
      return (text chunks, rest)
    | 4, count =>
      if maxNesting ≤ level || count.any (maxCount < ·) then none
      else
        let (items, rest) ← readItems fuel (level + 1) count.isNone (count.getD maxCount) h.rest
        return (array items, rest)
    | 5, count =>
      if maxNesting ≤ level || count.any (maxCount < ·) then none
      else
        let (entries, rest) ←
          readEntries fuel (level + 1) count.isNone (count.getD maxCount) h.rest
        return (map entries, rest)
    | 6, some n =>
      if maxNesting ≤ level then none
      else
        let (item, rest) ← read fuel (level + 1) h.rest
        return (tag n item, rest)
    | 7, some n =>
      let item ← simpleOrFloat? h.info n
      return (item, h.rest)
    | _, _ => none
termination_by structural fuel => fuel

/-- Exactly `count` items, or at most so many up to the break if their number is open. -/
def readItems : Nat → Nat → Bool → Nat → Bytes → Option (List CborItem × Bytes)
  | 0, _, _, _, _ => none
  | fuel + 1, level, isOpen, count, b =>
    match isOpen, count, b with
    | false, 0, b => some ([], b)
    | true, _, 0xFF :: rest => some ([], rest)
    | true, 0, _ => none
    | isOpen, count + 1, b => do
      let (item, rest) ← read fuel level b
      let (items, rest) ← readItems fuel level isOpen count rest
      return (item :: items, rest)
termination_by structural fuel => fuel

/-- Exactly `count` pairs, or at most so many up to the break if their number is open. -/
def readEntries :
    Nat → Nat → Bool → Nat → Bytes → Option (List (CborItem × CborItem) × Bytes)
  | 0, _, _, _, _ => none
  | fuel + 1, level, isOpen, count, b =>
    match isOpen, count, b with
    | false, 0, b => some ([], b)
    | true, _, 0xFF :: rest => some ([], rest)
    | true, 0, _ => none
    | isOpen, count + 1, b => do
      let (key, rest) ← read fuel level b
      let (value, rest) ← read fuel level rest
      let (entries, rest) ← readEntries fuel level isOpen count rest
      return ((key, value) :: entries, rest)
termination_by structural fuel => fuel

end

def parse? (b : Bytes) : Option CborItem :=
  match read (2 * b.length + 2) 0 b with
  | some (item, []) => some item
  | _ => none

end CborItem

end Arbor
