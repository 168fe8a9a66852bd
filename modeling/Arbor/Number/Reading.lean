import Arbor.Text.Utf8
import Arbor.Number.Binary64

/-! The spellings of numbers and truth values that the formats share. -/
namespace Arbor.Reading

def minInt64 : Int := -(2 ^ 63)
def maxInt64 : Int := 2 ^ 63 - 1

def int64? (n : Int) : Option Int64 :=
  if minInt64 ≤ n ∧ n ≤ maxInt64 then some (Int64.ofInt n) else none

def sign : Bytes → Bool × Bytes
  | 45 :: rest => (true, rest)
  | 43 :: rest => (false, rest)
  | rest => (false, rest)

/-- The value of digits in a base up to sixteen; none if there is no digit or another byte. -/
def digits? (base : Nat) (b : Bytes) : Option Nat :=
  if b = [] then none
  else b.foldl (fun acc x => do
    let n ← acc
    let d ← Bytes.hexValue? x
    if d < base then some (base * n + d) else none) (some 0)

def integer? (b : Bytes) : Option Int64 := do
  let (neg, rest) := sign b
  let n ← digits? 10 rest
  int64? (if neg then -(n : Int) else n)

/-- Whether every underscore stands between digits, a base mark counting as one. -/
def underscoresOk (hex : Bool) : Bool → Bytes → Bool
  | _, [] => true
  | afterDigit, 95 :: rest =>
    afterDigit && (match rest with
      | c :: _ => (Bytes.hexValue? c).any (fun d => d < 10 || hex)
      | [] => false) && underscoresOk hex false rest
  | _, c :: rest => underscoresOk hex ((Bytes.hexValue? c).any (fun d => d < 10 || hex)) rest

/-- The digits of a mantissa up to the first other byte: their value, how many follow the point,
whether there is any, and the rest. -/
def mantissa (base : Nat) (value places : Nat) (pointSeen any : Bool) :
    Bytes → Nat × Nat × Bool × Bytes
  | [] => (value, places, any, [])
  | 95 :: rest => mantissa base value places pointSeen any rest
  | 46 :: rest =>
    if pointSeen then (value, places, any, 46 :: rest) else mantissa base value places true any rest
  | c :: rest =>
    match Bytes.hexValue? c with
    | some d =>
      if d < base then
        mantissa base (base * value + d) (if pointSeen then places + 1 else places) pointSeen true rest
      else (value, places, any, c :: rest)
    | none => (value, places, any, c :: rest)

/-- The exponent after its mark, up to the end. Exponents beyond all ranges are cut. -/
def exponent? (b : Bytes) : Option Int := do
  let (neg, rest) := sign b
  match rest with
  | [] => none
  | c :: _ =>
    if !Bytes.isDigit c then none
    else
      let digits := rest.filter (· ≠ 95)
      if !digits.all Bytes.isDigit then none
      else
        let e := min (Bytes.natOfDigits (digits.take 400)) 10000
        some (if neg then -(e : Int) else e)

def lower (b : Bytes) : Bytes := b.map fun c => if 65 ≤ c && c ≤ 90 then c + 32 else c

/-- Infinity and NaN by name, in any case. -/
def named? (b : Bytes) : Option Binary64 :=
  let (neg, rest) := sign b
  if lower rest = ("inf" : Bytes) ∨ lower rest = ("infinity" : Bytes) then
    some (Binary64.infinity neg)
  else if lower b = ("nan" : Bytes) then some Binary64.nan
  else none

/-- The number nearest to `value * 2 ^ power`; out of range is none. -/
def scaled? (neg : Bool) (value : Nat) : Int → Option Binary64
  | .ofNat k =>
    if value = 0 then some (Binary64.ofParts neg 0)
    else if 2000 < k then none
    else Binary64.ofRatio? neg (value * 2 ^ k) 1
  | .negSucc k => Binary64.ofRatio? neg value (2 ^ (k + 1))

/-- Decimal or hexadecimal floating point without a name; out of range is none. -/
def numeral? (b : Bytes) : Option Binary64 :=
  let (neg, rest) := sign b
  let hex := match rest with
    | 48 :: x :: _ :: _ => x = 120 || x = 88
    | _ => false
  let body := if hex then rest.drop 2 else rest
  let (value, places, any, tail) := mantissa (if hex then 16 else 10) 0 0 false false body
  if !any || (b.elem 95 && !underscoresOk hex hex body) then none
  else match tail with
    | [] => if hex then none else Binary64.ofDecimal? neg value (-(places : Int))
    | mark :: e =>
      if hex then
        if mark = 112 || mark = 80 then
          (exponent? e).bind fun x => scaled? neg value (x - 4 * places)
        else none
      else if mark = 101 || mark = 69 then
        (exponent? e).bind fun x => Binary64.ofDecimal? neg value (x - places)
      else none

def float? (b : Bytes) : Option Binary64 := named? b <|> numeral? b

def bool? (b : Bytes) : Option Bool :=
  if b ∈ (["1", "t", "T", "TRUE", "true", "True"] : List String).map Bytes.ofString then some true
  else if b ∈ (["0", "f", "F", "FALSE", "false", "False"] : List String).map Bytes.ofString then
    some false
  else none

/-- Blank in the Unicode sense. -/
def isBlank (c : Char) : Bool :=
  let n := c.toNat
  (9 ≤ n && n ≤ 13) || n = 0x20 || n = 0x85 || n = 0xA0 || n = 0x1680 ||
    (0x2000 ≤ n && n ≤ 0x200A) || n = 0x2028 || n = 0x2029 || n = 0x202F || n = 0x205F || n = 0x3000

def trimBlank (b : Bytes) : Bytes :=
  let drop := fun p : Utf8.Piece => match p with
    | .scalar c => isBlank c
    | .stray _ => false
  ((((Utf8.pieces b).dropWhile drop).reverse.dropWhile drop).reverse).flatMap Utf8.Piece.bytes

end Arbor.Reading
