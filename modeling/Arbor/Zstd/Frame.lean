import Arbor.Wire.Varint

/-! Frames whose blocks are raw or of one repeated byte; all others are refused. -/
namespace Arbor.Zstd

open Wire

def magic : Bytes := [0x28, 0xB5, 0x2F, 0xFD]

def number? (width : Nat) (b : Bytes) : Option (Nat × Bytes) :=
  if (b.take width).length = width then some (ofLittleEndian (b.take width), b.drop width) else none

def maxBlock : Nat := 128 * 1024

inductive Block where
  | raw (content : Bytes)
  | repeated (count : Nat) (byte : UInt8)
  deriving DecidableEq, Repr

def Block.content : Block → Bytes
  | raw content => content
  | repeated count byte => List.replicate count byte

def rawHeader (last : Bool) (size : Nat) : Bytes :=
  littleEndian 3 (8 * size + (if last then 1 else 0))

/-- Raw blocks in front of `rest`; `fuel` bounds their number. -/
def writeBlocks : Nat → Bytes → Bytes
  | 0, b => rawHeader true b.length ++ b
  | fuel + 1, b =>
    if b.drop maxBlock = [] then rawHeader true b.length ++ b
    else rawHeader false maxBlock ++ b.take maxBlock ++ writeBlocks fuel (b.drop maxBlock)

/-- The descriptor of a frame in one segment with eight bytes for its size. -/
def descriptor : UInt8 := 0xE0

def compress (b : Bytes) : Bytes :=
  magic ++ [descriptor] ++ littleEndian 8 b.length ++ writeBlocks (b.length / maxBlock) b

structure Header where
  /-- The size of the content, if it is given. -/
  size : Option Nat
  /-- The greatest distance that a block may span. -/
  window : Nat
  deriving DecidableEq, Repr

def sizeWidth (flag : Nat) (single : Bool) : Nat :=
  match flag with
  | 0 => if single then 1 else 0
  | 1 => 2
  | 2 => 4
  | _ => 8

def windowOf (byte : Nat) : Nat :=
  let base := 2 ^ (10 + byte / 8)
  base + base / 8 * (byte % 8)

def header? (b : Bytes) : Option (Header × Bytes) := do
  let (d, b) ← number? 1 b
  let single := d / 32 % 2 = 1
  if d / 8 % 2 = 1 ∨ d / 4 % 2 = 1 then none
  else
    let (window, b) ← number? (if single then 0 else 1) b
    let (dictionary, b) ← number? ([0, 1, 2, 4].getD (d % 4) 0) b
    if dictionary ≠ 0 then none
    else
      let width := sizeWidth (d / 64) single
      let (n, b) ← number? width b
      let size := if width = 2 then n + 256 else n
      return ({
        size := if width = 0 then none else some size
        window := if single then max size 1024 else windowOf window }, b)

def block? (window : Nat) (b : Bytes) : Option (Block × Bool × Bytes) := do
  let (h, b) ← number? 3 b
  let last := h % 2 = 1
  let size := h / 8
  if maxBlock < size ∨ window < size then none
  else match h / 2 % 4 with
    | 0 =>
      let content := b.take size
      if content.length = size then some (.raw content, last, b.drop size) else none
    | 1 =>
      match b with
      | byte :: rest => some (.repeated size byte, last, rest)
      | [] => none
    | _ => none

def blocks? (window : Nat) : Nat → Bytes → Option (Bytes × Bytes)
  | 0, _ => none
  | fuel + 1, b => do
    let (block, last, b) ← block? window b
    if last then return (block.content, b)
    else
      let (more, b) ← blocks? window fuel b
      return (block.content ++ more, b)

def frame? (b : Bytes) : Option (Bytes × Bytes) := do
  match b with
  | m :: 0x2A :: 0x4D :: 0x18 :: rest =>
    let (size, rest) ← number? 4 rest
    if m / 16 ≠ 5 ∨ (rest.take size).length ≠ size then none
    else return ([], rest.drop size)
  | _ =>
    if magic.isPrefixOf b then
      let (h, b) ← header? (b.drop 4)
      let (content, b) ← blocks? h.window b.length b
      if h.size.all (· = content.length) then return (content, b) else none
    else none

def framesWith? : Nat → Bytes → Option Bytes
  | _, [] => some []
  | 0, _ => none
  | fuel + 1, b => do
    let (content, rest) ← frame? b
    return content ++ (← framesWith? fuel rest)

/-- The content of a sequence of frames; nothing at all is no frame. -/
def decompress? (b : Bytes) : Option Bytes := framesWith? b.length b

/-- Bytes put into a frame and taken out again. -/
structure Coder where
  compress : Bytes → Bytes
  decompress? : Bytes → Option Bytes

def rawCoder : Coder := ⟨compress, decompress?⟩

end Arbor.Zstd
