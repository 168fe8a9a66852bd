import Arbor.Command.Session
import Arbor.Tree.Sample

/-! A command reads its trees, writes its results and succeeds or fails. -/
namespace Arbor

namespace Session

variable [Monad m] [Host m]

def orFault (r : Except Fault α) : ExceptT Failure m α :=
  match r with
  | .ok a => return a
  | .error f => throw (.fault f)

def outlineOf (paint : Option Paint) (t : Tree) : Bytes :=
  match paint with
  | none => t.outline
  | some paint => t.paintedOutline paint

def dump (s : Session) (names : List Bytes) : ExceptT Failure m Unit :=
  s.eachTree "---\n" (fun t => do
    orFault (t.validate s.limit)
    s.emit (outlineOf s.paint? t)) names

def convert (s : Session) (names : List Bytes) : ExceptT Failure m Unit :=
  s.eachTree s.separator s.writeTree names

/-- The digest and the hash of a node, and its place in the outline if wanted. -/
def hashLine (digest : Bytes) (hash : UInt64) (place : Option Tree.Place) : Bytes :=
  Digest.write digest ++ [32] ++ Bytes.hexFixed Bytes.hexDigit 16 hash.toNat ++
    (match place with
      | none => []
      | some p => 32 :: (Bytes.blanks (2 * p.depth) ++ p.tree.label)) ++ [10]

def hashLines : List Bytes → List UInt64 → List Tree.Place → Bytes
  | d :: ds, h :: hs, p :: ps => hashLine d h (some p) ++ hashLines ds hs ps
  | _, _, _ => []

def hashTree (s : Session) (t : Tree) : ExceptT Failure m Unit := do
  let digests ← orFault (t.digests s.limit)
  s.trace (Note.ofDigests digests)
  let hashes ← orFault (t.hashes fnv1a s.limit)
  s.trace (Note.ofHashes hashes)
  s.emit (if s.options.all then hashLines digests.values hashes.values t.places
    else hashLine digests.value hashes.value none)

def hash (s : Session) (names : List Bytes) : ExceptT Failure m Unit :=
  s.eachTree [] s.hashTree names

def compare (s : Session) (names : List Bytes) : ExceptT Failure m Unit := do
  let (t, u) ← s.readPair names
  let d ← orFault (t.compare s.limit u)
  s.trace (Note.ofCompare t u)
  s.emit (Bytes.ofInt d ++ [10])
  if d ≠ 0 then throw .differ

def changeLines (paint : Option Paint) (cs : List Change) : Bytes :=
  cs.flatMap fun c => (match paint with
    | none => c.text
    | some paint => c.paintedText paint) ++ [10]

def diff (s : Session) (names : List Bytes) : ExceptT Failure m Unit := do
  let (t, u) ← s.readPair names
  let shown ← if s.options.text then orFault (t.outlineDiff s.limit s.isColoured u)
    else do
      let changes ← orFault (t.diff s.limit u)
      s.trace (Note.ofDiff s.limit t u changes)
      pure (changeLines s.paint? changes)
  if shown ≠ [] then
    s.emit shown
    throw .differ

def matchLines (paint : Option Paint) (ts : List Tree) : Bytes :=
  ts.flatMap fun t => (match paint with
    | none => t.label
    | some paint => t.paintAs paint t.label) ++ [9] ++ t.text ++ [10]

def find (s : Session) (names : List Bytes) : ExceptT Failure m Unit := do
  if s.options.expression = [] then throw (.usage .noExpression)
  match Query.compile s.options.expression with
  | .error _ => throw (.usage .badExpression)
  | .ok q =>
    s.eachTree [] (fun t => do
      s.trace (Note.ofQuery q t)
      s.emit (matchLines s.paint? (q.find t))) names

def patch (s : Session) (names : List Bytes) : ExceptT Failure m Unit := do
  if s.options.patchFile = [] then throw (.usage .noPatchFile)
  if 1 < names.length then throw (.usage .manyTrees)
  let name := names.headD Options.standard
  match ← Host.fileContents s.options.patchFile with
  | .error e => throw (.file e)
  | .ok text =>
    let t ← s.readTree name
    s.trace (Note.ofPatch s.limit t text)
    match t.applyPatch s.limit text with
    | .error e => throw (.tree .patching name (.patch e))
    | .ok u => s.writeTree u

def sample (s : Session) (names : List Bytes) : ExceptT Failure m Unit := do
  if names ≠ [] then throw (.usage .sampleArguments)
  s.writeTree (Sample.tree {})

def storePut (s : Session) (names : List Bytes) : ExceptT Failure (StateT Store m) Unit :=
  s.eachTree [] (fun t => do
    match ← modifyGet (Store.put s.limit t) with
    | .error e => throw (.store e)
    | .ok d =>
      s.trace (Note.ofPut (← get).coder s.limit t)
      s.emit (d ++ [10])) names

def storeGet (s : Session) (names : List Bytes) : ExceptT Failure (StateT Store m) Unit := do
  match names with
  | [d] =>
    match Digest.validate d with
    | .error e => throw (.usage (.digest e))
    | .ok () =>
      s.trace (Note.ofGet s.limit d (← get))
      match ← modifyGet (Store.get s.limit d) with
      | .error e => throw (.store e)
      | .ok t => s.writeTree t
  | _ => throw (.usage .digestCount)

def storeList (s : Session) (names : List Bytes) : ExceptT Failure (StateT Store m) Unit := do
  if names ≠ [] then throw (.usage .listArguments)
  match (← get).list with
  | .error e => throw (.store e)
  | .ok ds => s.emit (ds.flatMap (· ++ [10]))

def storeRemove (names : List Bytes) : ExceptT Failure (StateT Store m) Unit := do
  if names = [] then throw (.usage .noDigest)
  match ← modifyGet (Store.removeAll names) with
  | .done => return
  | .notDigest e => throw (.usage (.digest e))
  | .failed es => throw (.removal es)

def onStore (s : Session) (names : List Bytes) : StoreCommand → ExceptT Failure (StateT Store m) Unit
  | .put => s.storePut names
  | .get => s.storeGet names
  | .list => s.storeList names
  | .remove => storeRemove names

/-- Opens the store in its file, which is made if it is not there, and writes it back afterwards,
also when the command failed. -/
def withStore (s : Session) (act : ExceptT Failure (StateT Store m) Unit) :
    ExceptT Failure m Unit := do
  let name := s.storeName
  if let .error e ← Host.makeDirectory (FileName.directory name) then throw (.file e)
  match Store.ofFile false (← Host.openFile name) with
  | .error e => throw (.opening name e)
  | .ok store =>
    let (result, store) ← ExceptT.lift (act.run.run store)
    Host.saveFile name store.table.write
    match result with
    | .error e => throw e
    | .ok () =>
      if s.options.metrics then
        Host.report (store.counters.samples.flatMap Counters.Sample.line)

def store (s : Session) (names : List Bytes) : ExceptT Failure m Unit := do
  match names with
  | [] => throw (.usage .noSubcommand)
  | name :: names =>
    match StoreCommand.ofName? name with
    | none => throw (.usage (.noSuchCommand name))
    | some c => s.withStore (s.onStore names c)

def perform (s : Session) (names : List Bytes) : Command → ExceptT Failure m Unit
  | .dump => s.dump names
  | .convert => s.convert names
  | .hash => s.hash names
  | .compare => s.compare names
  | .diff => s.diff names
  | .find => s.find names
  | .patch => s.patch names
  | .store => s.store names
  | .sample => s.sample names

end Session

namespace Command

variable [Monad m] [Host m]

def mainSynopsis : String := "syntree [opts] command [opts]"

/-- What is shown when a command is not used as it should be. -/
def page (synopsis : String) (f : Failure) : Bytes :=
  Bytes.ofString ("synopsis: " ++ synopsis ++ "\n") ++
    match f with
    | .usage e => e.message ++ [10]
    | _ => []

/-- Shows how a command ended; the result is zero if it succeeded. -/
def finish (synopsis : String) : Except Failure Unit → m Nat
  | .ok () => return 0
  | .error .differ => return 1
  | .error (.usage e) => do
    Host.report (page synopsis (.usage e))
    return 1
  | .error f => do
    Host.report (f.message ++ [10])
    return 1

def topics : m (List Topic) :=
  Topic.all.filterM fun t => return Topic.isOn (← Host.lookup t.switch)

/-- The session that options before the command make, the command and its arguments. -/
def start (args : List Bytes) : ExceptT Failure m (Session × Command × List Bytes) := do
  let (options, rest) ← ({} : Options).take (OptionRule.scan mainRules args)
  match ← Settings.load options.config with
  | .error e => throw (.settings e)
  | .ok settings =>
    match rest with
    | [] => throw (.usage .noCommand)
    | name :: rest =>
      match ofName? name with
      | none => throw (.usage (.noSuchCommand name))
      | some c =>
        let session : Session :=
          { options, settings, topics := ← topics, showsColours := ← Host.showsColours }
        return (session, c, rest)

/-- Runs the program on its arguments; the result is zero if it succeeded. -/
def run (args : List Bytes) : m Nat := do
  match ← (start args).run with
  | .error f => finish mainSynopsis (.error f)
  | .ok (session, c, args) =>
    match ← (session.options.take (OptionRule.scan c.rules args)).run with
    | .error f =>
      Host.report (page c.synopsis f)
      return 1
    | .ok (options, names) =>
      finish c.synopsis (← (Session.perform { session with options } names c).run)

end Command

end Arbor
