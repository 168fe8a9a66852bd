import Arbor.Codec.Basic
import Arbor.Digest.Basic
import Arbor.Store.Counters
import Arbor.Store.Table

/-! A store keeps trees under their digests, written in the binary format and compressed. -/
namespace Arbor

inductive Damage where
  | codec (error : CodecError)
  | verify (error : VerifyError)
  | mismatch
  deriving DecidableEq, Repr

def Damage.message : Damage → String
  | codec e => e.message
  | verify e => e.message
  | mismatch => "digest mismatch"

inductive StoreError where
  | digest (error : DigestError)
  | fault (fault : Fault)
  | codec (error : CodecError)
  | closed
  | noKey
  | notFound (digest : Bytes)
  | corrupt (digest : Bytes) (damage : Damage)
  deriving DecidableEq, Repr

def StoreError.message : StoreError → Bytes
  | digest e => e.message
  | fault f => f.message
  | codec e => e.message
  | closed => "database not open"
  | noKey => "key required"
  | notFound d => Bytes.ofString "tree not found: " ++ d
  | corrupt d damage =>
    Bytes.ofString "corrupt tree: " ++ d ++ Bytes.ofString ": " ++ Bytes.ofString damage.message

structure Store where
  table : Table := .empty
  isOpen : Bool := true
  counters : Counters := {}
  /-- What compresses the entries. -/
  coder : Zstd.Coder := Zstd.rawCoder

namespace Store

def writing : Codec.WriteOptions := { format := .ok .proto, compress := true }

def reading : Codec.ReadOptions := { format := .ok .proto, compressed := true }

def entryOf (z : Zstd.Coder) (limit : Int) (t : Tree) : Except StoreError (Bytes × Bytes) := do
  let d ← (t.digest limit).mapError .fault
  let data ← (Codec.writeWith z limit writing t).mapError .codec
  return (d, data)

/-- The table with an entry, unless there is one under its key. -/
def insertNew (t : Table) (key value : Bytes) : Table :=
  if (t.get? key).isSome then t else t.insert key value

/-- Stores a tree under its digest; a tree that is there already stays as it is. -/
def put (limit : Int) (t : Tree) (s : Store) : Except StoreError Bytes × Store :=
  match entryOf s.coder limit t with
  | .error e => (.error e, s)
  | .ok (d, data) =>
    if s.isOpen then
      (.ok d, { s with table := insertNew s.table d data, counters := s.counters.countPut })
    else (.error .closed, s)

def treeOf (z : Zstd.Coder) (limit : Int) (d data : Bytes) : Except StoreError Tree :=
  match Codec.readWith z limit reading data with
  | .error e => .error (.corrupt d (.codec e))
  | .ok t =>
    match t.verify limit d with
    | .error e => .error (.corrupt d (.verify e))
    | .ok true => .ok t
    | .ok false => .error (.corrupt d .mismatch)

def fetch (limit : Int) (d : Bytes) (s : Store) : Except StoreError Tree :=
  if s.isOpen then
    match s.table.get? d with
    | none => .error (.notFound d)
    | some data => treeOf s.coder limit d data
  else .error .closed

def lookupOf : Except StoreError Tree → Lookup
  | .ok _ => .hit
  | .error (.notFound _) => .miss
  | .error (.corrupt _ _) => .corrupt
  | .error _ => .error

/-- Looks a tree up. Only lookups of well-formed digests are counted. -/
def get (limit : Int) (d : Bytes) (s : Store) : Except StoreError Tree × Store :=
  match Digest.validate d with
  | .error e => (.error (.digest e), s)
  | .ok () =>
    let r := s.fetch limit d
    (r, { s with counters := s.counters.countLookup (lookupOf r) })

def has (d : Bytes) (s : Store) : Except StoreError Bool := do
  (Digest.validate d).mapError .digest
  if s.isOpen then return (s.table.get? d).isSome else throw .closed

def delete (d : Bytes) (s : Store) : Except StoreError Unit × Store :=
  match Digest.validate d with
  | .error e => (.error (.digest e), s)
  | .ok () =>
    if s.isOpen then
      if (s.table.get? d).isSome then (.ok (), { s with table := s.table.erase d })
      else (.error (.notFound d), s)
    else (.error .closed, s)

def list (s : Store) : Except StoreError (List Bytes) :=
  if s.isOpen then .ok s.table.keys else .error .closed

/-- Puts bytes under a key, without a look at either. -/
def overwrite (key data : Bytes) (s : Store) : Except StoreError Unit × Store :=
  if !s.isOpen then (.error .closed, s)
  else if key = [] then (.error .noKey, s)
  else (.ok (), { s with table := s.table.insert key data })

/-- A closed store keeps its entries. -/
def close (s : Store) : Store := { s with isOpen := false }

def reopen (s : Store) : Store := { s with isOpen := true }

inductive Removal where
  | done
  | notDigest (error : DigestError)
  | failed (errors : List StoreError)
  deriving DecidableEq, Repr

/-- Deletes one digest after the other up to the first argument that is none; a failure does not
keep the digests after it from being deleted. -/
def removeFrom (errors : List StoreError) : List Bytes → Store → Removal × Store
  | [], s => (if errors = [] then .done else .failed errors, s)
  | d :: ds, s =>
    match Digest.validate d with
    | .error e => (.notDigest e, s)
    | .ok () =>
      match s.delete d with
      | (.ok (), s) => removeFrom errors ds s
      | (.error e, s) => removeFrom (errors ++ [e]) ds s

def removeAll (ds : List Bytes) (s : Store) : Removal × Store := removeFrom [] ds s

end Store

end Arbor
