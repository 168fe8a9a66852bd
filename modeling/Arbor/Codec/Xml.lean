import Arbor.Codec.XmlElement
import Arbor.Number.Decimal
import Arbor.Number.Reading

/-! Trees in XML: a record is an element `node` around the elements of its children. -/
namespace Arbor

namespace Record

def xmlAttribute (f : Field) (present : Bool) (value : Bytes) : Bytes :=
  if present then 32 :: (Bytes.ofString f.name ++ [61, 34] ++ value ++ [34]) else []

def startTag (kind : Bytes) (p : Payload) : Bytes :=
  Bytes.ofString "<node" ++ xmlAttribute .kind true (XmlElement.escape kind) ++
    xmlAttribute .int (p.int ≠ 0) (Bytes.ofInt p.int.toInt) ++
    xmlAttribute .float (!p.float.isZero) p.float.general ++
    xmlAttribute .bool p.bool "true" ++
    xmlAttribute .str (p.str ≠ []) (XmlElement.escape p.str) ++ [62]

def xmlBreak (indent level : Nat) : Bytes :=
  if indent = 0 then [] else 10 :: Bytes.blanks (indent * level)

mutual

def xmlOnto (indent level : Nat) (rest : Bytes) : Record → Bytes
  | null => rest
  | node kind p cs =>
    let close := Bytes.ofString "</node>" ++ rest
    startTag kind p ++ xmlAllOnto indent (level + 1)
      (if cs = [] then close else xmlBreak indent level ++ close) cs

def xmlAllOnto (indent level : Nat) (rest : Bytes) : List Record → Bytes
  | [] => rest
  | r :: rs => xmlBreak indent level ++ xmlOnto indent level (xmlAllOnto indent level rest rs) r

end

def setAttribute (r : Record) (name value : Bytes) : Option Record :=
  match Field.ofName? name with
  | some .kind => some (r.setKind value)
  | some .int =>
    if value = [] then some (r.setInt 0)
    else (Reading.integer? (Reading.trimBlank value)).map (r.setInt ·)
  | some .float =>
    if value = [] then some (r.setFloat .zero)
    else (Reading.float? (Reading.trimBlank value)).map (r.setFloat ·)
  | some .bool =>
    if value = [] then some (r.setBool false)
    else (Reading.bool? (Reading.trimBlank value)).map (r.setBool ·)
  | some .str => some (r.setStr value)
  | some .children | none => some r

/-- Readers refuse deeper nesting. -/
def xmlLevels : Nat := 5000

mutual

def ofXmlAt (level : Nat) : XmlElement → Option Record
  | .mk _ attributes children =>
    if xmlLevels ≤ level then none
    else do
      let r ← attributes.foldlM (fun r a => setAttribute r a.1 a.2) blank
      let cs ← ofXmlsAt (level + 1) children
      return r.setChildren cs

def ofXmlsAt (level : Nat) : List XmlElement → Option (List Record)
  | [] => some []
  | .mk name attributes children :: es =>
    if name = Bytes.ofString "node" then do
      let r ← ofXmlAt level (.mk name attributes children)
      let rs ← ofXmlsAt level es
      return r :: rs
    else ofXmlsAt level es

end

/-- The record of a root element, which must be a node. -/
def ofXml? : XmlElement → Option Record
  | .mk name attributes children =>
    if name = Bytes.ofString "node" then ofXmlAt 0 (.mk name attributes children) else none

end Record

namespace Codec

def xmlHeader : Bytes := Bytes.ofString "<?xml version=\"1.0\" encoding=\"UTF-8\"?>\n"

def writeXml (indent : Int) (r : Record) : Bytes := xmlHeader ++ r.xmlOnto indent.toNat 0 [10]

def readXml? (b : Bytes) : Option Record := (XmlElement.parse? b).bind Record.ofXml?

end Codec

end Arbor
