import Arbor.Tree.Traversal
import Arbor.Number.Decimal

/-! Labels, outlines and program text. -/
namespace Arbor

def boolWord (b : Bool) : Bytes := if b then "true" else "false"

namespace Head

def labelPayload : Head → Bytes
  | integer v => 32 :: Bytes.ofInt v.toInt
  | float v => 32 :: v.general
  | boolean v => 32 :: boolWord v
  | string v => 32 :: Quoted.encode v
  | identifier n => 32 :: n
  | unary op trailing =>
    32 :: (Quoted.encode op ++ if trailing then Bytes.ofString " postfix" else [])
  | binary op => 32 :: Quoted.encode op
  | member n => 32 :: n
  | _ => []

def label (h : Head) : Bytes := h.kind.name ++ h.labelPayload

end Head

namespace Tree

def label : Tree → Bytes
  | absent => []
  | node h _ => h.label

/-- One line for each present node, two blanks deeper than its parent's. -/
def outline (t : Tree) : Bytes :=
  t.places.flatMap fun p => Bytes.blanks (2 * p.depth) ++ p.tree.label ++ [10]

mutual

def textOnto (rest : Bytes) : Tree → Bytes
  | absent => Bytes.ofString "<nil>" ++ rest
  | node h cs =>
    match h, cs with
    | .integer v, _ => Bytes.ofInt v.toInt ++ rest
    | .float v, _ => v.general ++ rest
    | .boolean v, _ => boolWord v ++ rest
    | .string v, _ => Quoted.encode v ++ rest
    | .null, _ => Bytes.ofString "null" ++ rest
    | .identifier n, _ => n ++ rest
    | .unary op trailing, a :: _ =>
      if trailing then textOnto (op ++ rest) a else op ++ textOnto rest a
    | .binary op, a :: b :: _ => textOnto (32 :: (op ++ 32 :: textOnto rest b)) a
    | .invocation, a :: args =>
      textOnto (40 :: textsOnto ", " (41 :: rest) args) a
    | .member n, a :: _ => textOnto (46 :: (n ++ rest)) a
    | .expression, a :: _ => textOnto (59 :: rest) a
    | .block, stmts => textsOnto " " rest stmts
    | .ifElse, c :: yes :: no =>
      Bytes.ofString "if (" ++ textOnto (Bytes.ofString ") \x7b" ++
        textOnto (125 :: match no with
          | [] => rest
          | f :: _ => Bytes.ofString " else \x7b" ++ textOnto (125 :: rest) f) yes) c
    | .forLoop, i :: c :: u :: b :: _ =>
      Bytes.ofString "for (" ++ textOnto (32 :: textOnto (Bytes.ofString "; " ++
        textOnto (Bytes.ofString ") \x7b" ++ textOnto (125 :: rest) b) u) c) i
    | _, _ => rest

def textsOnto (sep : Bytes) (rest : Bytes) : List Tree → Bytes
  | [] => rest
  | t :: ts => textOnto (match ts with
    | [] => rest
    | u :: us => sep ++ textsOnto sep rest (u :: us)) t

end

def text (t : Tree) : Bytes := textOnto [] t

end Tree

end Arbor
