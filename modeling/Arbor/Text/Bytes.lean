/-! Texts inside trees are byte strings: they need not be valid UTF-8. -/
namespace Arbor

abbrev Bytes := List UInt8

namespace Bytes

def ofString (s : String) : Bytes := s.toUTF8.data.toList

instance : Coe String Bytes := ⟨ofString⟩

def toString? (b : Bytes) : Option String := String.fromUTF8? ⟨b.toArray⟩

/-- The text, with nothing in place of bytes that are no text. -/
def toStringD (b : Bytes) : String := (toString? b).getD ""

def ofChar (c : Char) : UInt8 := c.toNat.toUInt8

def hexDigit (n : Nat) : UInt8 :=
  if n < 10 then (48 + n).toUInt8 else (87 + n).toUInt8

def upperHexDigit (n : Nat) : UInt8 :=
  if n < 10 then (48 + n).toUInt8 else (55 + n).toUInt8

def hexFixed (digit : Nat → UInt8) : Nat → Nat → Bytes
  | 0, _ => []
  | width + 1, n => hexFixed digit width (n / 16) ++ [digit (n % 16)]

def toHex (b : Bytes) : Bytes :=
  b.flatMap fun x => [hexDigit (x.toNat / 16), hexDigit (x.toNat % 16)]

def hexValue? (b : UInt8) : Option Nat :=
  if 48 ≤ b ∧ b ≤ 57 then some (b.toNat - 48)
  else if 97 ≤ b ∧ b ≤ 102 then some (b.toNat - 87)
  else if 65 ≤ b ∧ b ≤ 70 then some (b.toNat - 55)
  else none

def ofHex? : Bytes → Option Bytes
  | [] => some []
  | a :: b :: rest => do
    let x ← hexValue? a
    let y ← hexValue? b
    return (16 * x + y).toUInt8 :: (← ofHex? rest)
  | [_] => none

def isDigit (b : UInt8) : Bool := 48 ≤ b && b ≤ 57

def ofNat (n : Nat) : Bytes := (Nat.toDigits 10 n).map ofChar

def ofInt : Int → Bytes
  | .ofNat n => ofNat n
  | .negSucc n => 45 :: ofNat (n + 1)

def blanks (n : Nat) : Bytes := List.replicate n 32

def natOfDigits (digits : Bytes) : Nat :=
  digits.foldl (fun n d => 10 * n + (d.toNat - 48)) 0

def join (sep : Bytes) : List Bytes → Bytes
  | [] => []
  | [b] => b
  | b :: rest => b ++ sep ++ join sep rest

/-- The part before the first separator and, if there is one, the part after it. -/
def cut (sep : UInt8) : Bytes → Bytes × Option Bytes
  | [] => ([], none)
  | b :: rest =>
    if b = sep then ([], some rest)
    else let (head, tail) := cut sep rest; (b :: head, tail)

/-- The parts between separators; there is always one more than separators. -/
def split (sep : UInt8) : Bytes → List Bytes
  | [] => [[]]
  | b :: rest =>
    if b = sep then [] :: split sep rest
    else match split sep rest with
      | [] => [[b]]
      | p :: ps => (b :: p) :: ps

def splitAt? (n : Nat) (b : Bytes) : Option (Bytes × Bytes) :=
  let front := b.take n
  if front.length = n then some (front, b.drop n) else none

def hasPart (part : Bytes) : Bytes → Bool
  | [] => part.isEmpty
  | b :: rest => part.isPrefixOf (b :: rest) || hasPart part rest

/-- The lines, each with the newline that ends it; the last may have none. -/
def lines : Bytes → List Bytes
  | [] => []
  | b :: rest =>
    if b = 10 then [b] :: lines rest
    else match lines rest with
      | [] => [[b]]
      | l :: ls => (b :: l) :: ls

end Bytes

/-- The order of byte strings: by the first byte that differs, a part before the whole. -/
def compareBytes : Bytes → Bytes → Ordering
  | [], [] => .eq
  | [], _ :: _ => .lt
  | _ :: _, [] => .gt
  | a :: as, b :: bs => if a < b then .lt else if b < a then .gt else compareBytes as bs

end Arbor
