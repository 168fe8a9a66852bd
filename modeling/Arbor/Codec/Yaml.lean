import Arbor.Codec.Record
import Arbor.Text.Quoted
import Arbor.Yaml.Parser

/-! Trees in YAML: a record is a block mapping, and its children are a block sequence. -/
namespace Arbor

namespace Yaml

def writeFloat (x : Binary64) : Bytes :=
  if x.isNaN then ".nan"
  else if x.isInfinite then if x.negative then "-.inf" else ".inf"
  else
    let text := x.general
    if text.any fun c => c = 46 || c = 101 then text else text ++ Bytes.ofString ".0"

end Yaml

namespace Record

def yamlLine (f : Field) (value : Bytes) : Bytes :=
  Bytes.ofString f.name ++ Bytes.ofString ": " ++ value ++ [10]

/-- The lines of a node's own fields; the first stands where it is, the others after blanks. -/
def yamlFields (column : Nat) (kind : Bytes) (p : Payload) : Bytes :=
  let more := fun (present : Bool) f value =>
    if present then Bytes.blanks column ++ yamlLine f value else []
  yamlLine .kind kind ++
    more (p.int ≠ 0) .int (Bytes.ofInt p.int.toInt) ++
    more (!p.float.isZero) .float (Yaml.writeFloat p.float) ++
    more p.bool .bool "true" ++
    more (p.str ≠ []) .str (Bytes.ofString (quoted p.str))

mutual

def yamlOnto (column : Nat) (rest : Bytes) : Record → Bytes
  | null => rest
  | node kind p cs =>
    yamlFields column kind p ++
      (if cs = [] then rest
      else Bytes.blanks column ++ Bytes.ofString "children:\n" ++ yamlAllOnto column rest cs)

def yamlAllOnto (column : Nat) (rest : Bytes) : List Record → Bytes
  | [] => rest
  | r :: rs =>
    Bytes.blanks column ++ Bytes.ofString "- " ++
      yamlOnto (column + 2) (yamlAllOnto column rest rs) r

end

/-- The integer part of a number that is not negative and has at most 64 bits; beyond the greatest
signed integer it wraps to the least. -/
def truncated? (x : Binary64) : Option Int64 :=
  if x.isNaN || x.isInfinite || (x.negative && !x.isZero) then none
  else
    let n := x.ratio.1 / x.ratio.2
    if 2 ^ 64 < n then none
    else if 2 ^ 63 ≤ n then some (Int64.ofInt Reading.minInt64)
    else some (Int64.ofNat n)

def setYamlScalar (r : Record) (f : Field) (s : YamlScalar) : Option Record :=
  match f, s with
  | _, .null => some r
  | .kind, s => s.asText.map (r.setKind ·)
  | .str, s => s.asText.map (r.setStr ·)
  | .int, .integer n => (Reading.int64? n).map (r.setInt ·)
  | .int, .float x => (truncated? x).map (r.setInt ·)
  | .int, .text t => ((Reading.float? t).bind truncated?).map (r.setInt ·)
  | .float, .integer n => some (r.setFloat (Binary64.ofInt n))
  | .float, .float x => some (r.setFloat x)
  | .float, .text t => (Reading.float? t).map (r.setFloat ·)
  | .bool, .bool b => some (r.setBool b)
  | _, _ => none

mutual

def setYaml (r : Record) : List (Bytes × YamlNode) → Option Record
  | [] => some r
  | (key, v) :: rest =>
    match Field.ofName? key, v with
    | none, _ => setYaml r rest
    | some f, .plain t => (r.setYamlScalar f (.ofPlain t)).bind fun r => setYaml r rest
    | some f, .quoted t => (r.setYamlScalar f (.text t)).bind fun r => setYaml r rest
    | some .children, .sequence ns => (ofYamls? ns).bind fun cs => setYaml (r.setChildren cs) rest
    | some _, _ => none

def ofYamls? : List YamlNode → Option (List Record)
  | [] => some []
  | n :: ns => do
    let r ← match n with
      | .mapping es => setYaml blank es
      | .plain t => if YamlScalar.ofPlain t = .null then some null else none
      | _ => none
    let rs ← ofYamls? ns
    return r :: rs

end

/-- The record of a document, which is a mapping or empty. -/
def ofYaml? : YamlNode → Option Record
  | .mapping es => setYaml blank es
  | .plain t => if YamlScalar.ofPlain t = .null then some blank else none
  | _ => none

end Record

namespace Codec

def writeYaml (r : Record) : Bytes := r.yamlOnto 0 []

def readYaml? (b : Bytes) : Option Record := (Yaml.parse? b).bind Record.ofYaml?

end Codec

end Arbor
