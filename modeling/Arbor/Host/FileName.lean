import Arbor.Text.Bytes

/-! A name is a list of parts between slashes; one that starts with a slash is absolute. -/
namespace Arbor.FileName

def slash : UInt8 := 47

/-- The part that stays. -/
def here : Bytes := [46]

/-- The part that goes up. -/
def up : Bytes := [46, 46]

def isAbsolute (name : Bytes) : Bool := name.head? = some slash

/-- One more part of a name; `taken` holds the parts before it, the last one first. -/
def push (absolute : Bool) (taken : List Bytes) (part : Bytes) : List Bytes :=
  if part = [] ∨ part = here then taken
  else if part = up then
    match taken with
    | [] => if absolute then [] else [up]
    | last :: before => if last = up then up :: taken else before
  else part :: taken

/-- The parts of the shortest equivalent name. -/
def parts (name : Bytes) : List Bytes :=
  ((Bytes.split slash name).foldl (push (isAbsolute name)) []).reverse

def ofParts (absolute : Bool) (ps : List Bytes) : Bytes :=
  if absolute then slash :: Bytes.join [slash] ps
  else if ps = [] then here
  else Bytes.join [slash] ps

/-- The shortest equivalent name. -/
def clean (name : Bytes) : Bytes := ofParts (isAbsolute name) (parts name)

def below (directory entry : Bytes) : Bytes := clean (directory ++ slash :: entry)

def directory (name : Bytes) : Bytes :=
  clean (name.reverse.dropWhile (· ≠ slash)).reverse

/-- A directory and the directories it is in, the outermost first. -/
def ancestors (name : Bytes) : List Bytes :=
  let ps := parts name
  (List.range ps.length).map fun n => ofParts (isAbsolute name) (ps.take (n + 1))

end Arbor.FileName
