import Arbor.Diff.Change
import Arbor.Diff.Outline
import Arbor.Trace.Message

/-! Where no colours are shown painting changes nothing but the doubled percent signs. -/
namespace Arbor

inductive Accent where
  | kind
  | payload
  deriving DecidableEq, Repr

abbrev Paint := Kind → Accent → Bytes → Bytes

/-- A way to format a template without values in the colour of a code. -/
abbrev Formatter := String → Bytes → Bytes

namespace Palette

def rgb (red green blue : Nat) : String :=
  "38;2;" ++ toString red ++ ";" ++ toString green ++ ";" ++ toString blue

def kindCode (k : Kind) : String :=
  if k.family = .statement then rgb 196 128 128
  else if k.isTerminal then rgb 74 92 138
  else rgb 128 168 196

def payloadCode? : Kind → Option String
  | .integerLiteral | .floatLiteral => some (rgb 128 216 236)
  | .booleanLiteral => some "36"
  | .stringLiteral => some (rgb 8 196 16)
  | .identifier | .memberReference => some (rgb 196 96 16)
  | .unaryOperator | .binaryOperator => some (rgb 255 0 196)
  | _ => none

def code? (k : Kind) : Accent → Option String
  | .kind => some (kindCode k)
  | .payload => payloadCode? k

/-- A template whose message is the text. -/
def templateOf (b : Bytes) : Bytes := b.flatMap fun c => if c = 37 then [37, 37] else [c]

/-- A formatter that fills templates, in their colours where colours are shown. -/
def formatter (colours : Bool) : Formatter := fun code template =>
  let text := Message.fill template []
  if colours then styled code text else text

def paintWith (format : Formatter) : Paint := fun k a b =>
  match code? k a with
  | none => b
  | some code => format code (templateOf b)

def paint (colours : Bool) : Paint := paintWith (formatter colours)

end Palette

namespace Tree

def paintedLabel (paint : Paint) : Tree → Bytes
  | absent => []
  | node h _ =>
    let lead := Bytes.ofString h.kind.name ++ [32]
    paint h.kind .kind h.kind.name ++
      if lead.isPrefixOf h.label then
        32 :: paint h.kind .payload (h.label.drop lead.length)
      else []

def paintedOutline (paint : Paint) (t : Tree) : Bytes :=
  t.places.flatMap fun p => Bytes.blanks (2 * p.depth) ++ p.tree.paintedLabel paint ++ [10]

def paintAs (paint : Paint) (t : Tree) (b : Bytes) : Bytes :=
  match t.kind? with
  | none => b
  | some k => paint k .kind b

end Tree

namespace Change

def paintedText (paint : Paint) (c : Change) : Bytes :=
  let shown := fun t => Tree.paintAs paint t t.text
  Bytes.ofString c.kind.name ++ [32] ++ c.path.text ++ Bytes.ofString ": " ++
    match c with
    | replace _ t u => shown t ++ Bytes.ofString " -> " ++ shown u
    | insert _ t => shown t
    | delete _ t => shown t

end Change

end Arbor
