import Arbor.Format
import Arbor.Host.Basic
import Arbor.Toml.Parser
import Arbor.Toml.Scope

/-! The defaults of the command line, which a TOML file may change. -/
namespace Arbor

structure Settings where
  format : Bytes := "json"
  color : Bytes := "auto"
  maxDepth : Int64 := 10000
  store : Bytes := "syntree.db"
  compress : Bool := false
  deriving DecidableEq, Repr

inductive ColorMode where
  | auto
  | always
  | never
  deriving DecidableEq, Repr

namespace ColorMode

def all : List ColorMode := [auto, always, never]

def name : ColorMode → String
  | auto => "auto"
  | always => "always"
  | never => "never"

def ofName? (b : Bytes) : Option ColorMode := all.find? fun m => Bytes.ofString m.name = b

end ColorMode

namespace Settings

inductive Key where
  | format
  | color
  | maxDepth
  | store
  | compress
  deriving DecidableEq, Repr

namespace Key

def all : List Key := [format, color, maxDepth, store, compress]

def name : Key → String
  | format => "format"
  | color => "color"
  | maxDepth => "max_depth"
  | store => "store"
  | compress => "compress"

def ofName? (b : Bytes) : Option Key :=
  let lower := Utf8.ofChars ((Utf8.chars b).map Utf8.lowerAscii)
  all.find? fun k => Bytes.ofString k.name = lower

end Key

/-- The directory for caches: the one that is named, unless its name is relative, or the usual
one in the home directory. -/
def cacheDirectory? (named home : Option Bytes) : Option Bytes :=
  let named := named.getD []
  let home := home.getD []
  if named = [] then
    if home = [] then none else some (home ++ Bytes.ofString "/.cache")
  else if FileName.isAbsolute named then some named else none

def ofCache (cache : Option Bytes) : Settings :=
  match cache with
  | none => {}
  | some dir => { store := FileName.below dir "syntree/trees.db" }

def set? (s : Settings) : Key → TomlValue → Option Settings
  | .format, .string t => some { s with format := t }
  | .color, .string t => some { s with color := t }
  | .maxDepth, .integer t => (TomlValue.integer? t).map fun n => { s with maxDepth := n }
  | .store, .string t => some { s with store := t }
  | .compress, .bool b => some { s with compress := b }
  | _, _ => none

structure Reader where
  settings : Settings
  scope : Toml.Scope := .empty
  /-- Whether a header has been read; no setting is a table, so nothing may follow it. -/
  inTable : Bool := false

def Reader.step (r : Reader) : TomlStatement → Option Reader
  | .assign [name] v => do
    let key ← Key.ofName? name
    if r.inTable || !Toml.singleValued v then none
    else
      let scope ← r.scope.define [name]
      let settings ← r.settings.set? key v
      return { r with settings, scope }
  | .table [name] => do
    let _ ← Key.ofName? name
    let scope ← r.scope.openTable [name]
    return { r with scope, inTable := true }
  | _ => none

def read? (s : Settings) (b : Bytes) : Option Settings := do
  let ss ← Toml.statements? b
  let r ← ss.foldlM Reader.step { settings := s }
  return r.settings

inductive Objection where
  | format (error : FormatError)
  | color (mode : Bytes)
  | depth (n : Int64)
  | noStore
  deriving DecidableEq, Repr

def Objection.message : Objection → String
  | format e => e.message
  | color m => "unsupported color mode: " ++ quoted m
  | depth n => "max_depth must be positive, got " ++ toString n.toInt
  | noStore => "store cannot be empty"

/-- All that is wrong, in the order of the settings. -/
def objections (s : Settings) : List Objection :=
  (match Format.ofName s.format with
    | .ok _ => []
    | .error e => [.format e]) ++
  (if (ColorMode.ofName? s.color).isSome then [] else [.color s.color]) ++
  (if s.maxDepth ≤ 0 then [.depth s.maxDepth] else []) ++
  (if s.store = [] then [.noStore] else [])

/-- The format that is set; JSON if the name is none of a format. -/
def treeFormat (s : Settings) : Format := (Format.ofName s.format).toOption.getD .json

def colorMode (s : Settings) : ColorMode := (ColorMode.ofName? s.color).getD .auto

end Settings

inductive SettingsError where
  | file (error : FileError)
  /-- The file is ill-formed or has an entry that is no setting. -/
  | unreadable (name : Bytes)
  | objections (name : Bytes) (found : List Settings.Objection)
  deriving DecidableEq, Repr

def SettingsError.message : SettingsError → Bytes
  | file e => e.message
  | unreadable name => Bytes.ofString "failed to unmarshal config " ++ name
  | objections name found =>
    Bytes.ofString "config " ++ name ++ Bytes.ofString ": " ++
      Bytes.join [10] (found.map fun o => Bytes.ofString o.message)

namespace Settings

def change (s : Settings) (name : Bytes) (contents : Except FileError Bytes) :
    Except SettingsError Settings :=
  match contents with
  | .error e => .error (if e.action = .reading then .unreadable name else .file e)
  | .ok b =>
    match s.read? b with
    | none => .error (.unreadable name)
    | some s => if s.objections = [] then .ok s else .error (.objections name s.objections)

def fileVariable : String := "SYNTREE_CONFIG"

/-- The settings of a file, of the file that the environment names, or the defaults. -/
def load [Monad m] [Host m] (name : Bytes) : m (Except SettingsError Settings) := do
  let cache := cacheDirectory? (← Host.lookup "XDG_CACHE_HOME") (← Host.lookup "HOME")
  let name ← if name = [] then do pure ((← Host.lookup fileVariable).getD []) else pure name
  if name = [] then return .ok (ofCache cache)
  else return (ofCache cache).change name (← Host.fileContents name)

end Settings

end Arbor
