import Arbor.Codec.Record
import Arbor.Codec.CborItem

/-! Trees in CBOR: a record is a map from field numbers to the fields that are not zero. -/
namespace Arbor

namespace Record

def cborText (b : Bytes) : Bytes := CborItem.head 3 b.length ++ b

def cborInt (v : Int64) : Bytes :=
  match v.toInt with
  | .ofNat n => CborItem.head 0 n
  | .negSucc n => CborItem.head 1 n

/-- Sixty-four bits, but two bytes for infinities and for the one NaN. -/
def cborFloat (x : Binary64) : Bytes :=
  if x.isNaN then [0xF9, 0x7E, 0x00]
  else if x.isInfinite then [0xF9, if x.negative then 0xFC else 0x7C, 0x00]
  else 0xFB :: CborItem.bigEndian 8 x.bits.toNat

def cborEntry (f : Field) (present : Bool) (value : Bytes) : Bytes :=
  if present then CborItem.head 0 f.number ++ value else []

def cborCount (p : Payload) (cs : List Record) : Nat :=
  1 + (if p.int ≠ 0 then 1 else 0) + (if p.float.isZero then 0 else 1) + (if p.bool then 1 else 0) +
    (if p.str ≠ [] then 1 else 0) + (if cs ≠ [] then 1 else 0)

mutual

def cborOnto (rest : Bytes) : Record → Bytes
  | null => 0xF6 :: rest
  | node kind p cs =>
    CborItem.head 5 (cborCount p cs) ++ cborEntry .kind true (cborText kind) ++
    cborEntry .int (p.int ≠ 0) (cborInt p.int) ++
    cborEntry .float (!p.float.isZero) (cborFloat p.float) ++
    cborEntry .bool p.bool [0xF5] ++
    cborEntry .str (p.str ≠ []) (cborText p.str) ++
    match cs with
    | [] => rest
    | c :: cs => CborItem.head 0 Field.children.number ++ CborItem.head 4 (cs.length + 1) ++
      cborOnto (cborAllOnto rest cs) c

def cborAllOnto (rest : Bytes) : List Record → Bytes
  | [] => rest
  | r :: rs => cborOnto (cborAllOnto rest rs) r

end

end Record

namespace CborItem

/-- The text of a text item, if every chunk is UTF-8. -/
def text? : CborItem → Option Bytes
  | text chunks => if chunks.all Utf8.isValid then some chunks.flatten else none
  | _ => none

def isNull : CborItem → Bool
  | simple n => n = 22 || n = 23
  | _ => false

/-- Whether the content of a tag is what the tags of times need. -/
def tagFits (item : CborItem) (n : Nat) : Bool :=
  match n, item with
  | 0, text _ => true
  | 0, _ => false
  | 1, unsigned _ => true
  | 1, negative _ => true
  | 1, float _ => true
  | 1, _ => false
  | _, _ => true

/-- The integer of the two tags of large numbers, if it has 64 bits. -/
def large? (item : CborItem) (n : Nat) : Option CborItem :=
  match item with
  | bytes chunks =>
    let magnitude := ofBigEndian chunks.flatten
    if n = 2 then if magnitude < 2 ^ 64 then some (unsigned magnitude) else none
    else if magnitude < 2 ^ 63 then some (negative magnitude) else none
  | _ => none

/-- The integer of an item; a simple value that means nothing else counts as its number. -/
def integer? : CborItem → Option Int
  | unsigned n => some n
  | negative n => if n < 2 ^ 63 then some (-1 - (n : Int)) else none
  | simple n => if 20 ≤ n && n ≤ 23 then none else some n
  | _ => none

def int64? (item : CborItem) : Option Int64 :=
  item.integer?.bind fun n => if n < 2 ^ 63 then some (Int64.ofInt n) else none

def float? : CborItem → Option Binary64
  | float x => some x
  | item => item.integer?.map Binary64.ofInt

def bool? : CborItem → Option Bool
  | simple 20 => some false
  | simple 21 => some true
  | _ => none

/-- The field a key names; a text key names it by its number's digits. -/
def field? : CborItem → Option Field
  | unsigned n => Field.ofNumber? n
  | text chunks => Field.all.find? fun f => Bytes.ofNat f.number = chunks.flatten
  | _ => none

def isKey : CborItem → Bool
  | text chunks => chunks.all Utf8.isValid
  | _ => true

end CborItem

namespace Record

def setScalar (r : Record) (f : Field) (item : CborItem) : Option Record :=
  if item.isNull then some (if f = .children then r.setChildren [] else r)
  else match f with
    | .kind => item.text?.map (r.setKind ·)
    | .int => item.int64?.map (r.setInt ·)
    | .float => item.float?.map (r.setFloat ·)
    | .bool => item.bool?.map (r.setBool ·)
    | .str => item.text?.map (r.setStr ·)
    | .children => none

mutual

/-- The entries of a map set in a record, each field once; none if one has the wrong type. -/
def setEntries (r : Record) (seen : List Field) : List (CborItem × CborItem) → Option Record
  | [] => some r
  | (key, item) :: rest =>
    if !key.isKey then none
    else match key.field? with
      | none => setEntries r seen rest
      | some f =>
        if seen.elem f then setEntries r seen rest
        else do
          let r ← setField r f item
          setEntries r (f :: seen) rest

def setField (r : Record) (f : Field) : CborItem → Option Record
  | .tag n item =>
    if n = 2 ∨ n = 3 then (item.large? n).bind (setScalar r f)
    else if item.tagFits n then setField r f item
    else none
  | .array items => if f = .children then (ofItems items).map (r.setChildren ·) else none
  | item => setScalar r f item

def ofItems : List CborItem → Option (List Record)
  | [] => some []
  | item :: items => do
    let r ← ofItem null item
    let rs ← ofItems items
    return r :: rs

/-- The record of an item; null gives `absent`. -/
def ofItem (absent : Record) : CborItem → Option Record
  | .map entries => setEntries blank [] entries
  | .simple n => if n = 22 || n = 23 then some absent else none
  | .tag n item => if n = 2 ∨ n = 3 ∨ !item.tagFits n then none else ofItem absent item
  | _ => none

end

def ofCbor? (item : CborItem) : Option Record := ofItem blank item

end Record

namespace Codec

def writeCbor (r : Record) : Bytes := r.cborOnto []

def readCbor? (b : Bytes) : Option Record := (CborItem.parse? b).bind Record.ofCbor?

end Codec

end Arbor
