import Arbor.Text.Bytes

/-! Byte strings under byte string keys, each key once and in ascending order. -/
namespace Arbor

abbrev Table := List (Bytes × Bytes)

namespace Table

def empty : Table := []

def get? (key : Bytes) : Table → Option Bytes
  | [] => none
  | (k, v) :: rest => if k = key then some v else get? key rest

def insert (key value : Bytes) : Table → Table
  | [] => [(key, value)]
  | (k, v) :: rest =>
    match compareBytes key k with
    | .lt => (key, value) :: (k, v) :: rest
    | .eq => (key, value) :: rest
    | .gt => (k, v) :: insert key value rest

def erase (key : Bytes) (t : Table) : Table := t.filter fun e => e.1 ≠ key

def keys (t : Table) : List Bytes := t.map (·.1)

end Table

end Arbor
