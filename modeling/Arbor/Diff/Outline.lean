import Arbor.Diff.Align
import Arbor.Tree.Outline

/-! The outlines of two trees compared line by line. -/
namespace Arbor

inductive Colour where
  | red
  | green
  deriving DecidableEq, Repr

def Colour.code : Colour → String
  | red => "31"
  | green => "32"

/-- A text between the sequences that turn a style on and off. -/
def styled (code : String) (text : Bytes) : Bytes :=
  Bytes.ofString ("\x1b[" ++ code ++ "m") ++ text ++ Bytes.ofString "\x1b[0m"

/-- A line in a colour, its newline left out. -/
def Colour.line (c : Colour) (line : Bytes) : Bytes :=
  if line.getLast? = some 10 then styled c.code line.dropLast ++ [10] else styled c.code line

def Move.mark : Move → UInt8
  | .keep => 32
  | .delete => 45
  | .insert => 43

def Move.colour? : Move → Option Colour
  | .keep => none
  | .delete => some .red
  | .insert => some .green

def Move.showLine (coloured : Bool) (m : Move) (line : Bytes) : Bytes :=
  match m.colour?, coloured with
  | some c, true => c.line (m.mark :: line)
  | _, _ => m.mark :: line

def Script.showLines (coloured : Bool) (s : Script Bytes) : Bytes :=
  s.flatMap fun e => e.items.flatMap (e.move.showLine coloured)

namespace Tree

/-- The line diff of two outlines; nothing if they are equal. -/
def outlineDiff (limit : Int) (coloured : Bool) (old new : Tree) : Except Fault Bytes := do
  old.validate limit
  new.validate limit
  let a := old.outline
  let b := new.outline
  return if a = b then [] else (Align.script a.lines b.lines).showLines coloured

end Tree

end Arbor
