import Arbor.Host.FileName

/-! What a program needs of the machine it runs on. -/
namespace Arbor

inductive FileFault where
  | missing
  | notDirectory
  | isDirectory
  /-- Anything else, in the words of the machine. -/
  | other (reason : String)
  deriving DecidableEq, Repr

def FileFault.message : FileFault → String
  | missing => "no such file or directory"
  | notDirectory => "not a directory"
  | isDirectory => "is a directory"
  | other reason => reason

inductive FileAction where
  | opening
  | reading
  | makingDirectory
  deriving DecidableEq, Repr

def FileAction.word : FileAction → String
  | opening => "open"
  | reading => "read"
  | makingDirectory => "mkdir"

structure FileError where
  action : FileAction
  name : Bytes
  fault : FileFault
  deriving DecidableEq, Repr

def FileError.message (e : FileError) : Bytes :=
  Bytes.ofString e.action.word ++ [32] ++ e.name ++ Bytes.ofString ": " ++
    Bytes.ofString e.fault.message

/-- A machine, seen from a program that runs in the monad. -/
class Host (m : Type → Type) where
  lookup : String → m (Option Bytes)
  /-- What is left of the input. -/
  input : m Bytes
  output : Bytes → m Unit
  report : Bytes → m Unit
  /-- Whether the output is a terminal that shows colours. -/
  showsColours : m Bool
  fileContents : Bytes → m (Except FileError Bytes)
  /-- Makes a file empty, whether or not it was there. -/
  clearFile : Bytes → m (Except FileError Unit)
  /-- The contents of a file that is made if it is not there. -/
  openFile : Bytes → m (Except FileError Bytes)
  /-- Replaces the contents of a file that is there. -/
  saveFile : Bytes → Bytes → m Unit
  /-- Adds to a file that is there. -/
  extendFile : Bytes → Bytes → m Unit
  makeDirectory : Bytes → m (Except FileError Unit)

namespace Host

/-- A machine, seen from a monad into which the actions of another can be taken. -/
@[reducible]
def lift (up : {α : Type} → m α → n α) [Host m] : Host n where
  lookup key := up (Host.lookup key)
  input := up Host.input
  output b := up (Host.output b)
  report b := up (Host.report b)
  showsColours := up Host.showsColours
  fileContents name := up (Host.fileContents name)
  clearFile name := up (Host.clearFile name)
  openFile name := up (Host.openFile name)
  saveFile name b := up (Host.saveFile name b)
  extendFile name b := up (Host.extendFile name b)
  makeDirectory name := up (Host.makeDirectory name)

instance [Monad m] [Host m] : Host (ExceptT ε m) := lift (m := m) ExceptT.lift

instance [Monad m] [Host m] : Host (StateT σ m) := lift (m := m) StateT.lift

end Host

end Arbor
