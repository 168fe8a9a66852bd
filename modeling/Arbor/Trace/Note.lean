import Arbor.Diff.Basic
import Arbor.Diff.Patch
import Arbor.Query.Basic
import Arbor.Store.Basic
import Arbor.Tree.Difference

/-! Only the notes of topics that are switched on are shown. -/
namespace Arbor

inductive Topic where
  | compare
  | hash
  | codec
  | store
  | diff
  | query
  deriving DecidableEq, Repr

namespace Topic

def all : List Topic := [compare, hash, codec, store, diff, query]

/-- The environment variable that switches a topic on. -/
def switch : Topic → String
  | compare => "SYNTREE_DEBUG_COMPARE"
  | hash => "SYNTREE_DEBUG_HASH"
  | codec => "SYNTREE_DEBUG_CODEC"
  | store => "SYNTREE_DEBUG_STORE"
  | diff => "SYNTREE_DEBUG_DIFF"
  | query => "SYNTREE_DEBUG_QUERY"

def isOn (value : Option Bytes) : Bool := (value.bind Reading.bool?).getD false

end Topic

structure Note where
  topic : Topic
  text : Bytes
  deriving DecidableEq, Repr

namespace Note

def words (topic : Topic) (parts : List Bytes) : Note := ⟨topic, Bytes.join [32] parts⟩

def kindWord (t : Tree) : Bytes := ((t.kind?.map Kind.name).getD "" : String)

/-- What decided a comparison. -/
def ofDifference : Difference → List Note
  | .payload depth t u =>
    [words .compare ["compare: payload differs at depth", Bytes.ofNat depth ++ [58], t.text, "vs", u.text]]
  | .count k m n =>
    [words .compare ["compare:", k.name, "child count", Bytes.ofNat m, "vs", Bytes.ofNat n]]
  | .kind | .branch => []

def ofCompare (t u : Tree) : List Note := ((t.difference? u).map ofDifference).getD []

def ofDigests (m : Marked Bytes) : List Note :=
  m.finished.map fun (h, d) => words .hash ["merkle:", h.kind.name, Digest.write d]

def ofHashes (m : Marked UInt64) : List Note :=
  m.finished.map fun (h, v) =>
    words .hash ["hash:", h.kind.name, (Nat.toDigits 16 v.toNat).map Bytes.ofChar]

def ofWritten (f : Format) (compressed : Bool) (t : Tree) (size : Nat) : Note :=
  words .codec ["codec: encoded", kindWord t, "as", f.name,
    40 :: Bytes.ofNat size, "bytes, compressed", boolWord compressed ++ [41]]

def ofRead (f : Format) (t : Tree) (size : Nat) : Note :=
  words .codec ["codec: decoded", kindWord t, "from", f.name, 40 :: Bytes.ofNat size, "bytes)"]

def ofDiff (limit : Int) (old new : Tree) (changes : List Change) : List Note :=
  let hashed := fun (t : Tree) => (((t.hashes fnv1a limit).toOption).map ofHashes).getD []
  hashed old ++ hashed new ++ changes.map fun c => words .diff ["diff:", c.text]

def ofPatch (limit : Int) (t : Tree) (text : Bytes) : List Note :=
  match Patch.parse? text, Codec.write limit {} t with
  | some patch, .ok written =>
    [ofWritten .json false t written.length, words .diff ["jsonpatch applied to", kindWord t]] ++
      match t.patchedForm limit patch with
      | .error _ => []
      | .ok form =>
        match Tree.ofPatched limit form with
        | .error _ => []
        | .ok u => [ofRead .json u form.writtenLength]
  | _, _ => []

def ofQuery (q : Query) (t : Tree) : List Note :=
  t.places.map fun p =>
    words .query ["query", Quoted.encode q.source, "on", kindWord p.tree ++ [58],
      match q.run (Query.envAt p) with
      | .ok b => boolWord b
      | .error e => e.message]

def ofPut (z : Zstd.Coder) (limit : Int) (t : Tree) : List Note :=
  match t.digests limit, Codec.writeWith z limit Store.writing t with
  | .ok m, .ok data =>
    ofDigests m ++ [ofWritten .proto true t data.length,
      words .store ["store: put", Digest.write m.value, 40 :: Bytes.ofNat data.length, "bytes)"]]
  | _, _ => []

def ofGet (limit : Int) (d : Bytes) (s : Store) : List Note :=
  match s.table.get? d with
  | none => []
  | some data =>
    match Codec.unwrapWith s.coder true data, Codec.readWith s.coder limit Store.reading data with
    | .ok plain, .ok t =>
      [ofRead .proto t plain.length] ++ (((t.digests limit).toOption).map ofDigests).getD [] ++
        match Store.treeOf s.coder limit d data with
        | .ok t => [words .store ["store: get", d, kindWord t]]
        | .error _ => []
    | _, _ => []

end Note

end Arbor
