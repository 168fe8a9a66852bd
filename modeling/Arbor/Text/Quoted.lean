import Arbor.Text.Utf8
import Arbor.Text.Printable

/-! Printable characters as they are, the others escaped, stray bytes in hexadecimal. -/
namespace Arbor.Quoted

def shortEscape? (c : Char) : Option Char :=
  match c.toNat with
  | 7 => some 'a'
  | 8 => some 'b'
  | 9 => some 't'
  | 10 => some 'n'
  | 11 => some 'v'
  | 12 => some 'f'
  | 13 => some 'r'
  | _ => none

def escape (letter : Char) (width n : Nat) : Bytes :=
  92 :: Bytes.ofChar letter :: Bytes.hexFixed Bytes.hexDigit width n

def encodeChar (c : Char) : Bytes :=
  if c = '"' ∨ c = '\\' then [92, Bytes.ofChar c]
  else if isPrintable c then Utf8.encode c
  else match shortEscape? c with
    | some letter => [92, Bytes.ofChar letter]
    | none =>
      if c.toNat < 0x20 ∨ c.toNat = 0x7F then escape 'x' 2 c.toNat
      else if c.toNat < 0x10000 then escape 'u' 4 c.toNat
      else escape 'U' 8 c.toNat

def encodePiece : Utf8.Piece → Bytes
  | .scalar c => encodeChar c
  | .stray b => escape 'x' 2 b.toNat

def encode (b : Bytes) : Bytes :=
  34 :: ((Utf8.pieces b).flatMap encodePiece ++ [34])

end Arbor.Quoted

namespace Arbor

/-- A quoted byte string as text; quoting leaves nothing but UTF-8. -/
def quoted (b : Bytes) : String := (Quoted.encode b).toStringD

end Arbor
