import Arbor.Command.Option

/-! The commands, their names and options. -/
namespace Arbor

inductive Command where
  | dump
  | convert
  | hash
  | compare
  | diff
  | find
  | patch
  | store
  | sample
  deriving DecidableEq, Repr

namespace Command

def all : List Command := [dump, convert, hash, compare, diff, find, patch, store, sample]

def names : Command → List String
  | dump => ["dump", "v"]
  | convert => ["convert", "c", "conv"]
  | hash => ["hash", "h"]
  | compare => ["compare", "cmp"]
  | diff => ["diff", "d", "di"]
  | find => ["find", "f"]
  | patch => ["patch", "p", "pa"]
  | store => ["store", "s"]
  | sample => ["sample"]

def ofName? (b : Bytes) : Option Command :=
  all.find? fun c => c.names.any fun n => Bytes.ofString n = b

def synopsis : Command → String
  | dump => "dump [files]"
  | convert => "convert [files]"
  | hash => "hash [-all] [files]"
  | compare => "compare a b"
  | diff => "diff [-text] a b"
  | find => "find -e <expr> [files]"
  | patch => "patch -p <patchfile> [file]"
  | store => "store [-db path] [-timeout d] <put|get|ls|rm> [args]"
  | sample => "sample"

/-- The options that come before a command. -/
def mainRules : List OptionRule :=
  [{ name := "color", setting := .color, isSwitch := true },
    { name := "z", setting := .compress, isSwitch := true },
    { name := "indent", setting := .indent },
    { name := "config", setting := .config },
    { name := "gops", setting := .agent, isSwitch := true },
    { name := "o", setting := .output },
    { name := "I", aliases := ["ifmt"], setting := .inFormat },
    { name := "O", aliases := ["ofmt"], setting := .outFormat }]

def ownRules : Command → List OptionRule
  | hash => [{ name := "all", setting := .all, isSwitch := true }]
  | diff => [{ name := "text", setting := .text, isSwitch := true }]
  | find => [{ name := "e", setting := .expression }]
  | patch => [{ name := "p", setting := .patchFile }]
  | store =>
    [{ name := "db", setting := .database },
      { name := "metrics", setting := .metrics, isSwitch := true },
      { name := "timeout", setting := .timeout }]
  | _ => []

/-- The options that may follow a command. -/
def rules (c : Command) : List OptionRule := c.ownRules ++ mainRules

end Command

inductive StoreCommand where
  | put
  | get
  | list
  | remove
  deriving DecidableEq, Repr

namespace StoreCommand

def all : List StoreCommand := [put, get, list, remove]

def names : StoreCommand → List String
  | put => ["put"]
  | get => ["get"]
  | list => ["ls", "list"]
  | remove => ["rm", "delete"]

def ofName? (b : Bytes) : Option StoreCommand :=
  all.find? fun c => c.names.any fun n => Bytes.ofString n = b

end StoreCommand

end Arbor
