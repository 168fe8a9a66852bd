import Arbor.Command.Run

/-! The machine the program runs on, and its start. -/
namespace Arbor.Machine

def faultOf : IO.Error → FileFault
  | .noFileOrDirectory .. => .missing
  | e => .other (toString e)

def isDirectory (name : Bytes) : IO Bool := do
  try (← IO.FS.realPath name.toStringD).isDir
  catch _ => return false

def isTaken (name : Bytes) : IO Bool := do
  try (← IO.FS.realPath name.toStringD).pathExists
  catch _ => return false

/-- Does something with a file; a failure is an error of the action. -/
def guarded (action : FileAction) (name : Bytes) (act : String → IO α) :
    IO (Except FileError α) := do
  try return .ok (← act name.toStringD)
  catch e => return .error ⟨action, name, faultOf e⟩

def onFile (action : FileAction) (name : Bytes) (act : String → IO α) :
    IO (Except FileError α) := do
  if ← isDirectory name then return .error ⟨action, name, .isDirectory⟩
  else guarded .opening name act

def bytesOf (b : ByteArray) : Bytes := b.data.toList

def arrayOf (b : Bytes) : ByteArray := ⟨b.toArray⟩

partial def drain (stream : IO.FS.Stream) (before : ByteArray) : IO ByteArray := do
  let chunk ← stream.read 65536
  if chunk.isEmpty then return before else drain stream (before ++ chunk)

def addDirectory (name : Bytes) : IO (Except FileError Unit) := do
  if ← isDirectory name then return .ok ()
  else if ← isTaken name then return .error ⟨.makingDirectory, name, .notDirectory⟩
  else guarded .makingDirectory name fun n => IO.FS.createDir n

/-- Makes directories one after the other up to the first failure. -/
def addDirectories : List Bytes → IO (Except FileError Unit)
  | [] => return .ok ()
  | name :: names => do
    match ← addDirectory name with
    | .ok () => addDirectories names
    | .error e => return .error e

/-- Whether the output is a terminal whose colours are wanted. -/
def showsColours : IO Bool := do
  let plain := (← IO.getEnv "NO_COLOR").isSome || (← IO.getEnv "TERM") = some "dumb"
  return !plain && (← (← IO.getStdout).isTty)

def put (stream : IO.FS.Stream) (b : Bytes) : IO Unit := do
  stream.write (arrayOf b)
  stream.flush

instance : Host IO where
  lookup key := do return (← IO.getEnv key).map Bytes.ofString
  input := do return bytesOf (← drain (← IO.getStdin) .empty)
  output b := do put (← IO.getStdout) b
  report b := do put (← IO.getStderr) b
  showsColours := showsColours
  fileContents name := onFile .reading name fun n => do return bytesOf (← IO.FS.readBinFile n)
  clearFile name := onFile .opening name fun n => IO.FS.writeBinFile n .empty
  openFile name := onFile .opening name fun n => do
    IO.FS.withFile n .append fun _ => pure ()
    return bytesOf (← IO.FS.readBinFile n)
  saveFile name b := IO.FS.writeBinFile name.toStringD (arrayOf b)
  extendFile name b := IO.FS.withFile name.toStringD .append fun h => h.write (arrayOf b)
  makeDirectory name := addDirectories (FileName.ancestors name)

end Arbor.Machine

/-- Runs a command; the result is zero if it succeeded. -/
def main (args : List String) : IO UInt32 := do
  return (← Arbor.Command.run (args.map Arbor.Bytes.ofString)).toUInt32
