import Arbor.Codec.Basic
import Arbor.Proofs.Codec.Canonical
import Arbor.Proofs.Codec.XmlElement
import Arbor.Proofs.Number.Spelling
import Arbor.Proofs.Tree.Shape

/-! Trees in XML are read back: every payload is an attribute, so escaping has to keep it. -/
namespace Arbor

/-- What XML carries is UTF-8 of its own characters. -/
theorem Format.objection?_xml_eq_none_iff {b : Bytes} :
    Format.objection? (some .xml) b = none ↔ XmlElement.isText b = true := by
  unfold objection? XmlElement.isText
  cases Utf8.isValid b <;> simp

theorem XmlElement.isText_token {b : Bytes} (hb : b.IsToken) : isText b = true :=
  isText_ascii hb.ascii fun c hc => isXmlChar_tokenByte (hb c hc)

namespace Record

open XmlElement

def attributeValue (kind : Bytes) (p : Payload) : Field → Bytes
  | .kind => kind
  | .int => Bytes.ofInt p.int.toInt
  | .float => p.float.general
  | .bool => "true"
  | .str => p.str
  | .children => []

/-- The value as it stands between quotes: texts are escaped. -/
def attributeRaw (kind : Bytes) (p : Payload) : Field → Bytes
  | .kind => escape kind
  | .str => escape p.str
  | f => attributeValue kind p f

section Attributes

variable {k : Kind} {p : Payload} {f : Field}

theorem startTag_eq (kind : Bytes) (p : Payload) :
    startTag kind p = 60 :: (Bytes.ofString "node" ++ (p.fields.flatMap (fun f =>
      attributeText (Bytes.ofString f.name) (attributeRaw kind p f)) ++ [62])) := by
  have htag : Bytes.ofString "<node" = 60 :: Bytes.ofString "node" := rfl
  rw [Payload.flatMap_fields, startTag, htag]
  simp [xmlAttribute, attributeText, attributeRaw, attributeValue]

theorem stands_attributeRaw (hstr : isText p.str = true) (hf : p.shows f = true) :
    Stands (attributeRaw (Bytes.ofString k.name) p f)
      (attributeValue (Bytes.ofString k.name) p f) := by
  cases f with
  | kind => exact .escape (isText_token (.name k))
  | int => exact .token (.ofInt _)
  | float => exact .token (Binary64.isToken_general (by simpa [Payload.shows] using hf))
  | bool => exact .token (b := Bytes.ofString "true") (by decide)
  | str => exact .escape hstr
  | children => cases hf

theorem setAttribute_int (r : Record) (v : Int64) :
    setAttribute r (Bytes.ofString Field.int.name) (Bytes.ofInt v.toInt) = some (r.setInt v) := by
  rw [setAttribute, Field.ofName?_name]
  dsimp only
  rw [if_neg (Bytes.ofInt_ne_nil _), (Bytes.IsToken.ofInt _).trimBlank, Reading.integer?_ofInt]
  rfl

theorem setAttribute_float (r : Record) {x : Binary64} (hx : x.isZero = false) :
    setAttribute r (Bytes.ofString Field.float.name) x.general =
      some (r.setFloat x.canonical) := by
  have hread := Binary64.float?_general hx
  have hne : x.general ≠ [] := by
    intro hnil
    rw [hnil] at hread
    cases hread
  rw [setAttribute, Field.ofName?_name]
  dsimp only
  rw [if_neg hne, (Binary64.isToken_general hx).trimBlank, hread]
  rfl

/-- Every attribute that is written sets its field. -/
theorem setAttribute_restore (hf : p.shows f = true) (r : Record) :
    setAttribute r (Bytes.ofString f.name) (attributeValue (Bytes.ofString k.name) p f) =
      some (restore (Bytes.ofString k.name) p r f) := by
  cases f with
  | kind => rfl
  | int => exact setAttribute_int r p.int
  | float => exact setAttribute_float r (by simpa [Payload.shows] using hf)
  | bool =>
      have hbool : p.bool = true := hf
      rw [restore, hbool]
      rfl
  | str => rfl
  | children => cases hf

end Attributes

def xmlElement : Tree → XmlElement :=
  Tree.fold default fun h es => .mk (Bytes.ofString "node")
    (h.payload.fields.map fun f =>
      (Bytes.ofString f.name, attributeValue (Bytes.ofString h.kind.name) h.payload f)) es

theorem xmlElement_node (h : Head) (cs : List Tree) :
    xmlElement (.node h cs) = .mk (Bytes.ofString "node")
      (h.payload.fields.map fun f =>
        (Bytes.ofString f.name, attributeValue (Bytes.ofString h.kind.name) h.payload f))
      (cs.map xmlElement) :=
  Tree.fold_node _ _ h cs

section Reading

variable {level : Nat} {t : Tree}

theorem ofXmlsAt_map {cs : List Tree} (hcomplete : ∀ c ∈ cs, c.Complete)
    (hcs : ∀ c ∈ cs, ofXmlAt level (xmlElement c) = some (ofTree c.canonical)) :
    ofXmlsAt level (cs.map xmlElement) = some ((cs.map Tree.canonical).map ofTree) := by
  induction cs with
  | nil => rfl
  | cons c cs ih =>
      have hc := hcs c List.mem_cons_self
      have hrest := ih (fun e he => hcomplete e (List.mem_cons_of_mem c he))
        fun e he => hcs e (List.mem_cons_of_mem c he)
      cases hcomplete c List.mem_cons_self with
      | node =>
          rw [xmlElement_node] at hc
          rw [List.map_cons, xmlElement_node, ofXmlsAt, if_pos rfl, hc, hrest]
          rfl

/-- The element of a tree that is not too deep is read as the record of the tree. -/
theorem ofXmlAt_xmlElement (ht : t.Complete) (hlevel : level + t.levels ≤ xmlLevels) :
    ofXmlAt level (xmlElement t) = some (ofTree t.canonical) := by
  induction t generalizing level with
  | absent => cases ht
  | node h cs ih =>
      obtain ⟨hroot, hbelow⟩ := Tree.levels_node_le_iff.mp (Int.le_refl (Tree.node h cs).levels)
      have hchildren := ofXmlsAt_map ht.children fun c hc =>
        @ih c hc (level + 1) (ht.children c hc) (by have := hbelow c hc; omega)
      have hfields := foldlM_fields (Bytes.ofString h.kind.name)
        fun f hf r => setAttribute_restore (k := h.kind) (p := h.payload) (f := f) hf r
      rw [xmlElement_node, ofXmlAt, if_neg (by omega), List.foldlM_map, hfields, hchildren,
        Tree.canonical_node, ofTree_node, h.payload_canonical, h.kind_canonical]
      rfl

end Reading

section Writing

variable {indent level : Nat} {b rest : Bytes}

theorem readsContent_xmlBreak {es : List XmlElement}
    (hes : ReadsContent (Bytes.ofString "node") (60 :: b) es rest) :
    ReadsContent (Bytes.ofString "node") (xmlBreak indent level ++ 60 :: b) es rest := by
  unfold xmlBreak
  split
  · exact hes
  · exact hes.lineBreak (indent * level)

theorem readsContent_children {cs : List Tree} {tail : Bytes}
    (hcs : ∀ c ∈ cs, ∀ more, ∃ b, xmlOnto indent level more (ofTree c) = 60 :: 110 :: b ∧
      ReadsElement (110 :: b) (xmlElement c) more)
    (htail : ReadsContent (Bytes.ofString "node") tail [] rest) :
    ReadsContent (Bytes.ofString "node") (xmlAllOnto indent level tail (cs.map ofTree))
      (cs.map xmlElement) rest := by
  induction cs with
  | nil => exact htail
  | cons c cs ih =>
      obtain ⟨b, htext, hread⟩ := hcs c List.mem_cons_self
        (xmlAllOnto indent level tail (cs.map ofTree))
      have hrest := ih fun e he => hcs e (List.mem_cons_of_mem c he)
      rw [List.map_cons, List.map_cons, xmlAllOnto, htext]
      exact readsContent_xmlBreak (.child (by decide) hread hrest)

/-- The text of a tree is read as its element, whatever follows. -/
theorem readsElement_xmlOnto {t : Tree} (ht : t.Complete)
    (htext : t.EachHead fun h => isText h.payload.str = true) (indent level : Nat)
    (rest : Bytes) :
    ∃ b, xmlOnto indent level rest (ofTree t) = 60 :: 110 :: b ∧
      ReadsElement (110 :: b) (xmlElement t) rest := by
  induction t generalizing level rest with
  | absent => cases ht
  | node h cs ih =>
      obtain ⟨hh, hcs⟩ := Tree.eachHead_node_iff.mp htext
      have hname : (Bytes.ofString "node").IsWord := by decide
      have hclose : ReadsContent (Bytes.ofString "node") (Bytes.ofString "</node>" ++ rest) []
          rest := .close hname rest
      -- The end tag follows the start tag at once, or the children in a line of its own.
      have htail : ReadsContent (Bytes.ofString "node")
          (if cs.map ofTree = [] then Bytes.ofString "</node>" ++ rest
            else xmlBreak indent level ++ (Bytes.ofString "</node>" ++ rest)) [] rest := by
        split
        · exact hclose
        · exact readsContent_xmlBreak hclose
      have hcontent := readsContent_children
        (fun c hc => ih c hc (ht.children c hc) (hcs c hc) (level + 1)) htail
      have helement := ReadsElement.ofContent h.payload.fields hname
        (fun f hf => ⟨f.isWord_name,
          stands_attributeRaw (k := h.kind) hh (Payload.shows_of_mem hf)⟩) hcontent
      rw [← xmlElement_node] at helement
      refine ⟨_, ?_, helement⟩
      rw [ofTree_node, xmlOnto, startTag_eq]
      simp
      rfl

end Writing

end Record

namespace Codec

open Record

theorem parse?_xmlHeader {b rest : Bytes} {e : XmlElement}
    (he : XmlElement.ReadsElement (110 :: b) e rest) :
    XmlElement.parse? (xmlHeader ++ 60 :: 110 :: b) = some e := by
  obtain ⟨content, hcontent⟩ : ∃ content,
      Bytes.ofString "version=\"1.0\" encoding=\"UTF-8\"" = 118 :: content := ⟨_, rfl⟩
  have hheader : xmlHeader = 60 :: 63 :: (Bytes.ofString "xml" ++
      32 :: (118 :: content ++ (63 :: [62] ++ [10]))) := by
    rw [← hcontent]
    decide
  have hdeclaration : XmlElement.isDeclaration (118 :: content) = true := by
    rw [← hcontent]
    decide
  have hend : 63 ∉ 118 :: content := by
    rw [← hcontent]
    decide
  have hlength : (xmlHeader ++ 60 :: 110 :: b).length + 1 = xmlHeader.length + b.length + 3 := by
    rw [List.length_append, List.length_cons, List.length_cons]
    omega
  have hbytes : xmlHeader ++ 60 :: 110 :: b = 60 :: 63 :: (Bytes.ofString "xml" ++
      32 :: (118 :: content ++ (63 :: [62] ++ 10 :: 60 :: 110 :: b))) := by
    rw [hheader]
    simp
  have hline : XmlElement.skipText? (10 :: 60 :: 110 :: b) = some (60 :: 110 :: b) :=
    XmlElement.skipText?_lineBreak 0 (110 :: b)
  rw [XmlElement.parse?, hlength, hbytes, XmlElement.prolog?_instruction,
    XmlElement.skipInstruction?_declaration rfl hend hdeclaration, Option.bind_some,
    XmlElement.prolog?_text (by decide), hline, Option.bind_some,
    XmlElement.prolog?_element (by decide) he]

theorem head?_xmlHeader (b : Bytes) : (xmlHeader ++ b).head? = some 60 := rfl

variable {limit indent : Int} {t : Tree}

theorem readXml?_writeXml (ht : t.Complete) (hdepth : t.depth ≤ 5000)
    (htext : t.EachHead fun h => XmlElement.isText h.payload.str = true) (indent : Int) :
    readXml? (writeXml indent (ofTree t)) = some (ofTree t.canonical) := by
  obtain ⟨b, hbytes, hread⟩ := readsElement_xmlOnto ht htext indent.toNat 0 [10]
  have hlevels : 0 + t.levels ≤ xmlLevels := by
    rwa [Nat.zero_add, ← Tree.depth_eq_levels]
  have hrecord := ofXmlAt_xmlElement ht hlevels
  rw [readXml?, writeXml, hbytes, parse?_xmlHeader hread, Option.bind_some]
  cases ht with
  | node =>
      rw [xmlElement_node] at hrecord ⊢
      rw [ofXml?, if_pos rfl, hrecord]

/-- A valid tree whose texts are UTF-8 of characters that XML carries, and which has no more levels
than readers of XML let elements be nested, is written in XML with any indentation, and its text is
read as the same tree up to the signs of zeros and the payloads of NaNs: the two compare as zero. -/
theorem read_write_xml {limit indent : Int} {t : Tree} (ht : t.validate limit = .ok ())
    (hdepth : t.depth ≤ 5000)
    (htext : t.EachHead fun h => Utf8.isValid h.payload.str = true ∧
      ∀ c ∈ Utf8.chars h.payload.str, isXmlChar c = true) :
    ∃ b, write limit { format := .ok .xml, indent } t = .ok b ∧
      read limit { format := .ok .xml } b = .ok t.canonical ∧
      t.compare limit t.canonical = .ok 0 := by
  have htext' : t.EachHead fun h => XmlElement.isText h.payload.str = true := by
    intro h cs hmem
    obtain ⟨hvalid, hchars⟩ := htext h cs hmem
    exact Bool.and_eq_true_iff.mpr ⟨hvalid, List.all_eq_true.mpr hchars⟩
  refine ⟨writeXml indent (ofTree t), read_write_of_record (by decide) ht ?_ rfl ?_ ?_⟩
  · simpa only [Format.objection?_xml_eq_none_iff] using htext'
  · rw [writeXml, head?_xmlHeader]
    decide
  · exact readXml?_writeXml (Tree.complete_of_validateAt ht) hdepth htext' indent

/-- A call whose texts are of quotes, an ampersand, angles, a tab, line ends and a character beyond
the first plane, and of blanks only, with the least integer, a negative zero and a NaN. -/
theorem read_write_xml_call :
    let text : Bytes :=
      [0x22, 0x27, 0x26, 0x3C, 0x5D, 0x5D, 0x3E, 0x09, 0x0D, 0x0A, 0xF0, 0x9F, 0x98, 0x80]
    let call (zero nan : Binary64) := Tree.node .invocation [.node (.identifier text) [],
      .node (.identifier [0x20, 0x20]) [], .node (.integer (-9223372036854775808)) [],
      .node (.float zero) [], .node (.float nan) []]
    (call ⟨0x8000000000000000⟩ ⟨0xFFF0000000000001⟩).validate 1 = .ok () ∧
      ∃ b, write 1 { format := .ok .xml, indent := 2 }
          (call ⟨0x8000000000000000⟩ ⟨0xFFF0000000000001⟩) = .ok b ∧
        read 1 { format := .ok .xml } b = .ok (call .zero .nan) := by
  intro text call
  have hvalid : (call ⟨0x8000000000000000⟩ ⟨0xFFF0000000000001⟩).validate 1 = .ok () := rfl
  have hdepth : (call ⟨0x8000000000000000⟩ ⟨0xFFF0000000000001⟩).depth ≤ 5000 := by
    rw [Tree.depth_eq_levels]
    decide
  have hcarried : (call ⟨0x8000000000000000⟩ ⟨0xFFF0000000000001⟩).EachHead fun h =>
      XmlElement.isText h.payload.str = true := by
    simp only [call, Tree.eachHead_node_iff, List.forall_mem_cons, List.not_mem_nil,
      false_implies, implies_true, and_true]
    decide
  have htext : (call ⟨0x8000000000000000⟩ ⟨0xFFF0000000000001⟩).EachHead fun h =>
      Utf8.isValid h.payload.str = true ∧
        ∀ c ∈ Utf8.chars h.payload.str, isXmlChar c = true := by
    intro h cs hmem
    obtain ⟨hvalid, hchars⟩ := Bool.and_eq_true_iff.mp (hcarried h cs hmem)
    exact ⟨hvalid, List.all_eq_true.mp hchars⟩
  obtain ⟨b, hwrite, hread, -⟩ := @read_write_xml 1 2 _ hvalid hdepth htext
  exact ⟨hvalid, b, hwrite, hread⟩

end Codec

end Arbor
