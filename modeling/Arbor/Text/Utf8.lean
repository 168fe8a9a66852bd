import Arbor.Text.Bytes

/-! A byte string is read as scalar values and, between them, stray bytes. -/
namespace Arbor.Utf8

inductive Piece where
  | scalar (c : Char)
  | stray (b : UInt8)
  deriving DecidableEq, Repr

def isTail (b : UInt8) : Bool := 0x80 ≤ b && b ≤ 0xBF

def two? (a b : UInt8) : Option Char :=
  if 0xC2 ≤ a && a ≤ 0xDF && isTail b then
    some (Char.ofNat ((a.toNat - 0xC0) * 64 + (b.toNat - 0x80)))
  else none

/-- The second byte of a three byte character excludes overlong forms and surrogates. -/
def three? (a b c : UInt8) : Option Char :=
  if 0xE0 ≤ a && a ≤ 0xEF && isTail b && isTail c &&
      (a != 0xE0 || 0xA0 ≤ b) && (a != 0xED || b ≤ 0x9F) then
    some (Char.ofNat ((a.toNat - 0xE0) * 4096 + (b.toNat - 0x80) * 64 + (c.toNat - 0x80)))
  else none

/-- The second byte of a four byte character excludes overlong forms and values beyond the last. -/
def four? (a b c d : UInt8) : Option Char :=
  if 0xF0 ≤ a && a ≤ 0xF4 && isTail b && isTail c && isTail d &&
      (a != 0xF0 || 0x90 ≤ b) && (a != 0xF4 || b ≤ 0x8F) then
    some (Char.ofNat ((a.toNat - 0xF0) * 262144 + (b.toNat - 0x80) * 4096 +
      (c.toNat - 0x80) * 64 + (d.toNat - 0x80)))
  else none

/-- The character that starts with byte `a`, and how many bytes of `rest` it takes. -/
def scalar? (a : UInt8) (rest : Bytes) : Option (Char × Nat) :=
  if a < 0x80 then some (Char.ofNat a.toNat, 0)
  else match rest with
    | [] => none
    | [b] => (two? a b).map (·, 1)
    | [b, c] => (two? a b).map (·, 1) <|> (three? a b c).map (·, 2)
    | b :: c :: d :: _ =>
      (two? a b).map (·, 1) <|> (three? a b c).map (·, 2) <|> (four? a b c d).map (·, 3)

/-- The pieces after the next `skip` bytes. -/
def piecesAfter : Nat → Bytes → List Piece
  | _, [] => []
  | skip + 1, _ :: rest => piecesAfter skip rest
  | 0, a :: rest =>
    match scalar? a rest with
    | some (c, n) => .scalar c :: piecesAfter n rest
    | none => .stray a :: piecesAfter 0 rest

/-- The pieces of a byte string in order; a byte that starts no character stands alone. -/
def pieces (b : Bytes) : List Piece := piecesAfter 0 b

def encode (c : Char) : Bytes := String.utf8EncodeChar c

def Piece.isScalar : Piece → Bool
  | .scalar _ => true
  | .stray _ => false

def Piece.bytes : Piece → Bytes
  | .scalar c => encode c
  | .stray b => [b]

/-- The character a piece stands for; a stray byte counts as the replacement character. -/
def Piece.char : Piece → Char
  | .scalar c => c
  | .stray _ => '\uFFFD'

def isValid (b : Bytes) : Bool := (pieces b).all Piece.isScalar

def chars (b : Bytes) : List Char := (pieces b).map Piece.char

def ofChars (cs : List Char) : Bytes := cs.flatMap encode

/-- The bytes with every stray byte replaced, hence UTF-8. -/
def mend (b : Bytes) : Bytes := ofChars (chars b)

/-- Lower case of the characters whose lower case is ASCII: the capitals, dotted `İ` and `K`. -/
def lowerAscii (c : Char) : Char :=
  if c = '\u0130' then 'i' else if c = '\u212A' then 'k' else c.toLower

/-- Simple case folding onto ASCII: besides the capitals, `ſ` folds to `s` and `K` to `k`. -/
def foldAscii (c : Char) : Char :=
  if c = '\u017F' then 's' else if c = '\u212A' then 'k' else c.toLower

end Arbor.Utf8
