import Arbor.Host.Basic
import Arbor.Store.Basic
import Arbor.Wire.Varint

/-! A file holds a mark and the entries of the table, each with its length. -/
namespace Arbor

inductive OpenError where
  | file (error : FileError)
  /-- Another program has the file open for too long. -/
  | locked
  | notStore
  deriving DecidableEq, Repr

def OpenError.message (name : Bytes) (e : OpenError) : Bytes :=
  Bytes.ofString "opening store " ++ name ++ Bytes.ofString ": " ++
    match e with
    | file e => e.message
    | locked => "timeout"
    | notStore => "invalid database"

namespace Table

def mark : Bytes := [0, 0, 0, 0] ++ Bytes.ofString "arbor store 1"

def writeEntries : Table → Bytes
  | [] => []
  | (k, v) :: rest => Wire.counted k ++ Wire.counted v ++ writeEntries rest

def write (t : Table) : Bytes := mark ++ t.writeEntries

def readEntries? : Nat → Bytes → Option Table
  | _, [] => some []
  | 0, _ :: _ => none
  | fuel + 1, b => do
    let (k, b) ← Wire.readCounted? b
    let (v, b) ← Wire.readCounted? b
    return (k, v) :: (← readEntries? fuel b)

def read? (b : Bytes) : Option Table :=
  if b = [] then some .empty
  else if mark.isPrefixOf b then readEntries? b.length (b.drop mark.length)
  else none

end Table

namespace Store

/-- The store in a file, whose contents are known if it could be opened. -/
def ofFile (locked : Bool) (contents : Except FileError Bytes) : Except OpenError Store :=
  match contents with
  | .error e => .error (.file e)
  | .ok b =>
    if locked then .error .locked
    else match Table.read? b with
      | none => .error .notStore
      | some table => .ok { table }

end Store

end Arbor
