import Arbor.Command.Basic
import Arbor.Palette
import Arbor.Trace.Note

/-! What the commands share: options over settings, and the files they read and write. -/
namespace Arbor

structure Session where
  options : Options := {}
  settings : Settings := {}
  topics : List Topic := []
  /-- Whether the output is a terminal that shows colours. -/
  showsColours : Bool := false

namespace Session

def limit (s : Session) : Int := s.settings.maxDepth.toInt

/-- The format of a file: the option's, the one that its suffix names, or the one that is set. -/
def inFormat (s : Session) (name : Bytes) : Format :=
  match s.options.inFormat with
  | some f => f
  | none =>
    let named := if name = Options.standard then none else Format.suffixFormat? name
    named.getD s.settings.treeFormat

def outFormat (s : Session) : Format := s.options.outFormat.getD s.settings.treeFormat

def compresses (s : Session) : Bool := s.options.compress || s.settings.compress

/-- How trees are written; without an indentation it is two blanks. -/
def writing (s : Session) : Codec.WriteOptions :=
  { format := .ok s.outFormat
    indent := if s.options.indent = 0 then 2 else s.options.indent.toInt
    compress := s.compresses }

def separator (s : Session) : Bytes :=
  if !s.compresses && s.outFormat = .yaml then "---\n" else []

def isColoured (s : Session) : Bool :=
  s.options.color ||
    match s.settings.colorMode with
    | .always => true
    | .never => false
    | .auto => s.showsColours && s.options.output.isNone

def paint? (s : Session) : Option Paint :=
  if s.isColoured then some (Palette.paint s.showsColours) else none

def storeName (s : Session) : Bytes :=
  if s.options.database = [] then s.settings.store else s.options.database

variable [Monad m] [Host m]

/-- Writes to the output file, or to the output. -/
def emit (s : Session) (b : Bytes) : m Unit :=
  match s.options.output with
  | some name => Host.extendFile name b
  | none => Host.output b

def trace (s : Session) (notes : List Note) : m Unit :=
  match notes.filter (s.topics.contains ·.topic) with
  | [] => pure ()
  | shown => Host.report (shown.flatMap fun n => n.text ++ [10])

/-- The bytes in a file, or what is left of the input. -/
def contents (name : Bytes) : ExceptT Failure m Bytes := do
  if name = Options.standard then Host.input
  else match ← Host.fileContents name with
    | .ok b => return b
    | .error e =>
      throw (if e.action = .reading then .tree .decoding name (.file e) else .file e)

def readTree (s : Session) (name : Bytes) : ExceptT Failure m Tree := do
  let b ← contents name
  let format := s.inFormat name
  match Codec.read s.limit { format := .ok format } b, Codec.unwrap false b with
  | .ok t, .ok plain => do
    s.trace [.ofRead format t plain.length]
    return t
  | .error e, _ => throw (.tree .decoding name (.codec e))
  | _, .error e => throw (.tree .decoding name (.codec e))

def writeTree (s : Session) (t : Tree) : ExceptT Failure m Unit := do
  match Codec.write s.limit s.writing t with
  | .error e => throw (.codec e)
  | .ok b =>
    s.trace [.ofWritten s.outFormat s.compresses t b.length]
    s.emit b

/-- Reads one tree after the other and does something with each. -/
def eachOf (s : Session) (between : Bytes) (act : Tree → ExceptT Failure m Unit) :
    List Bytes → ExceptT Failure m Unit
  | [] => return
  | name :: names => do
    let t ← s.readTree name
    tryCatch (act t) fun e => throw (.tree .processing name e)
    if names ≠ [] ∧ between ≠ [] then s.emit between
    s.eachOf between act names

/-- The trees in files, or the one on the input when there are no files. -/
def eachTree (s : Session) (between : Bytes) (act : Tree → ExceptT Failure m Unit)
    (names : List Bytes) : ExceptT Failure m Unit :=
  s.eachOf between act (if names = [] then [Options.standard] else names)

/-- The trees in two files, of which one may be the input. -/
def readPair (s : Session) (names : List Bytes) : ExceptT Failure m (Tree × Tree) := do
  match names with
  | [a, b] =>
    if a = Options.standard ∧ b = Options.standard then throw (.usage .inputTwice)
    else
      let t ← s.readTree a
      let u ← s.readTree b
      return (t, u)
  | _ => throw (.usage (.fileCount names.length))

end Session

end Arbor
