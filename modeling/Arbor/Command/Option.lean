import Arbor.Command.Error

/-! Options stand in front of the arguments and end at the first argument that is none. -/
namespace Arbor

inductive Setting where
  | color
  | compress
  | indent
  | config
  | agent
  | output
  | inFormat
  | outFormat
  | all
  | text
  | expression
  | patchFile
  | database
  | metrics
  | timeout
  deriving DecidableEq, Repr

structure OptionRule where
  name : String
  aliases : List String := []
  setting : Setting
  isSwitch : Bool := false

structure Assignment where
  setting : Setting
  value : Bytes
  deriving DecidableEq, Repr

/-- Arguments taken apart: what options assign, then the other arguments or why there are none. -/
structure Scan where
  assignments : List Assignment := []
  rest : Except UsageError (List Bytes)

namespace Scan

def after (a : Assignment) (s : Scan) : Scan := { s with assignments := a :: s.assignments }

def failed (e : UsageError) : Scan := { rest := .error e }

end Scan

namespace OptionRule

def find? (rules : List OptionRule) (name : Bytes) : Option OptionRule :=
  rules.find? fun r => (r.name :: r.aliases).any fun n => Bytes.ofString n = name

/-- The switch that a name turns off. -/
def negated? (rules : List OptionRule) (name : Bytes) : Option OptionRule :=
  let no := Bytes.ofString "no-"
  if no.isPrefixOf name then (find? rules (name.drop no.length)).filter (·.isSwitch) else none

/-- The assignment of a name with an equals sign in it. -/
def assigned? (rules : List OptionRule) (name : Bytes) : Option Assignment :=
  match Bytes.cut 61 name with
  | (_, none) => none
  | (key, some value) => (find? rules key).map fun r => ⟨r.setting, value⟩

def name? : Bytes → Option Bytes
  | 45 :: 45 :: name => some name
  | 45 :: c :: name => some (c :: name)
  | _ => none

/-- Takes arguments apart; two dashes alone end the options. -/
def scan (rules : List OptionRule) : List Bytes → Scan
  | [] => { rest := .ok [] }
  | arg :: args =>
    match name? arg with
    | none => { rest := .ok (arg :: args) }
    | some [] => { rest := .ok args }
    | some name =>
      match assigned? rules name, find? rules name, negated? rules name with
      | some a, _, _ => (Scan.failed (.unknownOption name)).after a
      | none, some r, _ =>
        if r.isSwitch then (scan rules args).after ⟨r.setting, "true"⟩
        else match args with
          | [] => .failed (.noValue r.name)
          | value :: args => (scan rules args).after ⟨r.setting, value⟩
      | none, none, some r => (scan rules args).after ⟨r.setting, "false"⟩
      | none, none, none => .failed (.unknownOption name)

end OptionRule

structure Options where
  color : Bool := false
  compress : Bool := false
  indent : Int64 := 0
  config : Bytes := []
  agent : Bool := false
  /-- The file that is written instead of the output. -/
  output : Option Bytes := none
  inFormat : Option Format := none
  outFormat : Option Format := none
  all : Bool := false
  text : Bool := false
  expression : Bytes := []
  patchFile : Bytes := []
  database : Bytes := []
  metrics : Bool := false
  deriving DecidableEq, Repr

namespace Options

/-- The name of the input and output where a file is expected. -/
def standard : Bytes := [45]

def readBool (b : Bytes) : Except Failure Bool :=
  match Reading.bool? b with
  | some v => .ok v
  | none => .error (.value .bool b false)

/-- Whether a text is an integer, however large. -/
def isInteger (b : Bytes) : Bool := (Reading.digits? 10 (Reading.sign b).2).isSome

def readInt (b : Bytes) : Except Failure Int64 :=
  match Reading.integer? b with
  | some n => .ok n
  | none => .error (.value .integer b (isInteger b))

def readFormat (b : Bytes) : Except Failure Format :=
  (Format.ofName b).mapError fun e => .usage (.format e)

/-- A timeout is a positive duration; how long it is does not matter to one program alone. -/
def checkTimeout (b : Bytes) : Except Failure Unit :=
  match Duration.parse b with
  | .error e => .error (.usage (.duration e))
  | .ok d => if 0 < d then .ok () else .error (.usage (.timeout b))

def set (o : Options) (a : Assignment) : Except Failure Options :=
  match a.setting with
  | .color => (readBool a.value).map fun v => { o with color := v }
  | .compress => (readBool a.value).map fun v => { o with compress := v }
  | .indent => (readInt a.value).map fun v => { o with indent := v }
  | .config => .ok { o with config := a.value }
  | .agent => (readBool a.value).map fun v => { o with agent := v }
  | .output => .ok (if a.value = standard then o else { o with output := some a.value })
  | .inFormat => (readFormat a.value).map fun v => { o with inFormat := some v }
  | .outFormat => (readFormat a.value).map fun v => { o with outFormat := some v }
  | .all => (readBool a.value).map fun v => { o with all := v }
  | .text => (readBool a.value).map fun v => { o with text := v }
  | .expression => .ok { o with expression := a.value }
  | .patchFile => .ok { o with patchFile := a.value }
  | .database => .ok { o with database := a.value }
  | .metrics => (readBool a.value).map fun v => { o with metrics := v }
  | .timeout => (checkTimeout a.value).map fun () => o

/-- The options after an assignment; an output file is emptied at once. -/
def assign [Monad m] [Host m] (o : Options) (a : Assignment) : ExceptT Failure m Options := do
  if a.setting = .output ∧ a.value ≠ standard then
    if let .error e ← Host.clearFile a.value then throw (.file e)
  match o.set a with
  | .ok o => return o
  | .error e => throw e

def take [Monad m] [Host m] (o : Options) (s : Scan) :
    ExceptT Failure m (Options × List Bytes) := do
  let o ← s.assignments.foldlM assign o
  match s.rest with
  | .ok rest => return (o, rest)
  | .error e => throw (.usage e)

end Options

end Arbor
