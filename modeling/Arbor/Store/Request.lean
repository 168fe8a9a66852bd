import Arbor.Store.Basic

/-! What can be asked of a store, and a run of several requests. -/
namespace Arbor.Store

inductive Request where
  | put (tree : Tree)
  | get (digest : Bytes)
  | has (digest : Bytes)
  | delete (digest : Bytes)
  | list
  | close
  | reopen
  /-- A write that goes past the store. -/
  | overwrite (key data : Bytes)

inductive Answer where
  | done
  | digest (d : Bytes)
  | tree (t : Tree)
  | found (b : Bool)
  | digests (ds : List Bytes)
  | failed (error : StoreError)

def answer (wrap : α → Answer) : Except StoreError α → Answer
  | .ok a => wrap a
  | .error e => .failed e

def step (limit : Int) (s : Store) : Request → Answer × Store
  | .put t => let (r, s) := s.put limit t; (answer .digest r, s)
  | .get d => let (r, s) := s.get limit d; (answer .tree r, s)
  | .has d => (answer .found (s.has d), s)
  | .delete d => let (r, s) := s.delete d; (answer (fun _ => .done) r, s)
  | .list => (answer .digests s.list, s)
  | .close => (.done, s.close)
  | .reopen => (.done, s.reopen)
  | .overwrite k b => let (r, s) := s.overwrite k b; (answer (fun _ => .done) r, s)

/-- The answers to requests in their order, each with the depth limit in force, and the store after
them. -/
def run : Store → List (Int × Request) → List Answer × Store
  | s, [] => ([], s)
  | s, (limit, r) :: rs =>
    let (a, s) := step limit s r
    let (as, s) := run s rs
    (a :: as, s)

end Arbor.Store
