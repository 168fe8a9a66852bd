import Arbor.Diff.Patch
import Arbor.Number.Duration
import Arbor.Settings
import Arbor.Store.File

/-! Failures of commands. -/
namespace Arbor

inductive UsageError where
  | unknownOption (name : Bytes)
  | noValue (option : String)
  | format (error : FormatError)
  | duration (error : DurationError)
  | timeout (text : Bytes)
  | noCommand
  | noSuchCommand (name : Bytes)
  | fileCount (n : Nat)
  | inputTwice
  | noExpression
  | badExpression
  | noPatchFile
  | manyTrees
  | sampleArguments
  | noSubcommand
  | digestCount
  | listArguments
  | noDigest
  | digest (error : DigestError)
  deriving DecidableEq, Repr

namespace UsageError

def cause : UsageError → Bytes
  | unknownOption n => "unknown option: " ++ quoted n
  | noValue o => "option requires a value: " ++ o
  | format e => e.message
  | duration e => e.message
  | timeout t => Bytes.ofString "timeout must be positive, got " ++ t
  | noCommand => "no command provided"
  | noSuchCommand n => "no such command: " ++ quoted n ++ " not found"
  | fileCount n => "expected 2 files, got " ++ toString n
  | inputTwice => "at most one file may be stdin"
  | noExpression => "find requires -e <expr>"
  | badExpression => "query error"
  | noPatchFile => "patch requires -p <patchfile>"
  | manyTrees => "patch takes at most one file"
  | sampleArguments => "sample takes no arguments"
  | noSubcommand => "store requires a subcommand"
  | digestCount => "get requires one digest"
  | listArguments => "ls takes no arguments"
  | noDigest => "rm requires at least one digest"
  | digest e => e.message

def message (e : UsageError) : Bytes := Bytes.ofString "usage error: " ++ e.cause

end UsageError

inductive ValueType where
  | integer
  | bool
  deriving DecidableEq, Repr

def ValueType.reader : ValueType → String
  | integer => "strconv.ParseInt"
  | bool => "strconv.ParseBool"

inductive TreeAction where
  | decoding
  | processing
  | patching
  deriving DecidableEq, Repr

def TreeAction.word : TreeAction → String
  | decoding => "decoding"
  | processing => "processing"
  | patching => "patching"

inductive Failure where
  | usage (error : UsageError)
  /-- A value of an option that is not of its type. -/
  | value (type : ValueType) (text : Bytes) (tooLarge : Bool)
  | file (error : FileError)
  | settings (error : SettingsError)
  | fault (fault : Fault)
  | codec (error : CodecError)
  | patch (error : PatchError)
  | store (error : StoreError)
  | removal (errors : List StoreError)
  | opening (name : Bytes) (error : OpenError)
  | tree (action : TreeAction) (name : Bytes) (cause : Failure)
  /-- The trees differ, which the output says already. -/
  | differ
  deriving DecidableEq, Repr

def Failure.message : Failure → Bytes
  | usage e => e.message
  | value type text tooLarge =>
    type.reader ++ ": parsing " ++ quoted text ++ ": " ++
      if tooLarge then "value out of range" else "invalid syntax"
  | file e => e.message
  | settings e => e.message
  | fault f => f.message
  | codec e => e.message
  | patch e => e.message
  | store e => e.message
  | removal es => Bytes.join [10] (es.map StoreError.message)
  | opening name e =>
    Bytes.ofString "error opening store " ++ name ++ Bytes.ofString ": " ++ e.message name
  | tree action name cause =>
    Bytes.ofString ("error " ++ action.word ++ " ") ++ name ++ Bytes.ofString ": " ++ cause.message
  | differ => []

end Arbor
