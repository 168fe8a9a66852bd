import Arbor.Host.Basic

/-! A host in memory: files and directories are entries under absolute names. -/
namespace Arbor

inductive Entry where
  | file (contents : Bytes)
  | directory
  deriving DecidableEq, Repr

structure Memory where
  workingDirectory : List Bytes
  /-- The root is not among the entries. -/
  entries : List (List Bytes × Entry)
  environment : List (String × Bytes)
  pending : Bytes := []
  written : Bytes := []
  reported : Bytes := []

namespace Memory

def entry? (s : Memory) (place : List Bytes) : Option Entry :=
  if place = [] then some .directory else s.entries.lookup place

/-- Where a part leads from a place, which has to be a directory. -/
def enter (s : Memory) (place : List Bytes) (part : Bytes) : Except FileFault (List Bytes) :=
  match s.entry? place with
  | none => .error .missing
  | some (.file _) => .error .notDirectory
  | some .directory =>
    .ok (if part = [] ∨ part = FileName.here then place
      else if part = FileName.up then place.dropLast
      else place ++ [part])

/-- The place that a name stands for; there need not be an entry. -/
def place (s : Memory) (name : Bytes) : Except FileFault (List Bytes) :=
  if name = [] then .error .missing
  else
    let start := if FileName.isAbsolute name then [] else s.workingDirectory
    (Bytes.split FileName.slash name).foldlM s.enter start

def setEntries (entries : List (List Bytes × Entry)) (place : List Bytes) (e : Entry) :
    List (List Bytes × Entry) :=
  match entries with
  | [] => [(place, e)]
  | (p, old) :: rest => if p = place then (p, e) :: rest else (p, old) :: setEntries rest place e

def set (s : Memory) (place : List Bytes) (e : Entry) : Memory :=
  { s with entries := setEntries s.entries place e }

def contents (s : Memory) (name : Bytes) : Except FileFault (List Bytes × Bytes) := do
  let place ← s.place name
  match s.entry? place with
  | none => .error .missing
  | some .directory => .error .isDirectory
  | some (.file b) => .ok (place, b)

/-- A failure to read shows after the file is open. -/
def fileContents (s : Memory) (name : Bytes) : Except FileError Bytes :=
  match s.contents name with
  | .ok (_, b) => .ok b
  | .error .isDirectory => .error ⟨.reading, name, .isDirectory⟩
  | .error f => .error ⟨.opening, name, f⟩

/-- The place and contents of a file that may be new, and the host in which it is there. -/
def openFile (s : Memory) (name : Bytes) : Except FileError (Bytes × List Bytes × Memory) :=
  let result : Except FileFault (Bytes × List Bytes × Memory) := do
    let place ← s.place name
    match s.entry? place with
    | some .directory => .error .isDirectory
    | some (.file b) => .ok (b, place, s)
    | none =>
      match s.entry? place.dropLast with
      | some .directory => .ok ([], place, s.set place (.file []))
      | some (.file _) => .error .notDirectory
      | none => .error .missing
  result.mapError fun f => ⟨.opening, name, f⟩

def alterFile (f : Bytes → Bytes) (name : Bytes) (s : Memory) : Memory :=
  match s.contents name with
  | .ok (place, b) => s.set place (.file (f b))
  | .error _ => s

/-- The host with one directory more, the directory it is in being there. -/
def addDirectory (s : Memory) (name : Bytes) : Except FileError Memory := do
  let place ← (s.place name).mapError fun f => ⟨.makingDirectory, name, f⟩
  match s.entry? place with
  | some .directory => .ok s
  | some (.file _) => .error ⟨.makingDirectory, name, .notDirectory⟩
  | none => .ok (s.set place .directory)

def attempt (step : Except FileError (α × Memory)) : StateM Memory (Except FileError α) := fun s =>
  match step with
  | .ok (a, s) => (.ok a, s)
  | .error e => (.error e, s)

instance : Host (StateM Memory) where
  lookup key := do return (← get).environment.lookup key
  input := modifyGet fun s => (s.pending, { s with pending := [] })
  output b := modify fun s => { s with written := s.written ++ b }
  report b := modify fun s => { s with reported := s.reported ++ b }
  showsColours := pure false
  fileContents name := do return (← get).fileContents name
  clearFile name := do
    attempt ((← get).openFile name |>.map fun (_, place, s) => ((), s.set place (.file [])))
  openFile name := do attempt ((← get).openFile name |>.map fun (b, _, s) => (b, s))
  saveFile name b := modify (alterFile (fun _ => b) name)
  extendFile name b := modify (alterFile (· ++ b) name)
  makeDirectory name := do
    attempt (((FileName.ancestors name).foldlM addDirectory (← get)).map fun s => ((), s))

end Memory

end Arbor
