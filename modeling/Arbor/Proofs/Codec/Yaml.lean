import Arbor.Codec.Basic
import Arbor.Proofs.Codec.Canonical
import Arbor.Proofs.Tree.Shape
import Arbor.Proofs.Yaml.Block

/-! Mappings and sequences are found again by the columns in which their lines start. -/
namespace Arbor

namespace Record

open Yaml

def yamlValue (kind : Bytes) (p : Payload) : Field → YamlNode
  | .kind => .plain kind
  | .int => .plain (Bytes.ofInt p.int.toInt)
  | .float => .plain (Yaml.writeFloat p.float)
  | .bool => .plain "true"
  | .str => .quoted p.str
  | .children => .sequence []

def yamlText (kind : Bytes) (p : Payload) : Field → Bytes
  | .kind => kind
  | .int => Bytes.ofInt p.int.toInt
  | .float => Yaml.writeFloat p.float
  | .bool => "true"
  | .str => Quoted.encode p.str
  | .children => []

def yamlEntry (kind : Bytes) (p : Payload) (f : Field) : Bytes × YamlNode :=
  (Bytes.ofString f.name, yamlValue kind p f)

def yamlEntries : Tree → List (Bytes × YamlNode) :=
  Tree.fold [] fun h below =>
    h.payload.fields.map (yamlEntry (Bytes.ofString h.kind.name) h.payload) ++
      if below = [] then [] else [(childrenKey, .sequence (below.map .mapping))]

theorem yamlEntries_node (h : Head) (cs : List Tree) :
    yamlEntries (.node h cs) =
      h.payload.fields.map (yamlEntry (Bytes.ofString h.kind.name) h.payload) ++
        if cs = [] then [] else [(childrenKey, .sequence ((cs.map yamlEntries).map .mapping))] := by
  rw [yamlEntries, Tree.fold_node]
  cases cs <;> rfl

section Fields

variable {k : Kind} {kind : Bytes} {p : Payload} {f : Field}

theorem yamlFields_eq (column : Nat) (kind : Bytes) (p : Payload) :
    Bytes.blanks column ++ yamlFields column kind p =
      p.fields.flatMap fun f => Bytes.blanks column ++ yamlLine f (yamlText kind p f) := by
  rw [Payload.flatMap_fields, yamlFields]
  simp [yamlText, ofString_quoted]

theorem readsValue_yamlText (hstr : Utf8.isValid p.str = true) (hf : p.shows f = true) :
    ReadsValue (yamlText (Bytes.ofString k.name) p f) (yamlValue (Bytes.ofString k.name) p f) := by
  cases f with
  | kind =>
      have hne : Bytes.ofString k.name ≠ [] := by cases k <;> decide
      have hdash : Bytes.ofString k.name ≠ [45] := by cases k <;> decide
      exact .plain (.name k) hne hdash
  | int =>
      obtain ⟨n, htext, -⟩ := Numeral.exists_ofInt p.int.toInt
      rw [yamlText, yamlValue, ← htext]
      exact .numeral n
  | float => exact .float (by simpa [Payload.shows] using hf)
  | bool =>
      have htrue : ReadsValue (Bytes.ofString "true") (.plain "true") :=
        .plain (by decide) (by decide) (by decide)
      exact htrue
  | str => exact .quoted hstr
  | children => cases hf

theorem setYaml_plain {t : Bytes} {r r' : Record}
    (h : r.setYamlScalar f (.ofPlain t) = some r') (es : List (Bytes × YamlNode)) :
    setYaml r ((Bytes.ofString f.name, .plain t) :: es) = setYaml r' es := by
  rw [setYaml.eq_3 _ _ _ f t f.ofName?_name, h, Option.bind_some]

theorem setYamlScalar_float (hf : p.shows .float = true) (r : Record) :
    r.setYamlScalar .float (.ofPlain (Yaml.writeFloat p.float)) =
      some (r.setFloat p.float.canonical) := by
  rcases ofPlain_writeFloat (x := p.float) (by simpa [Payload.shows] using hf) with
    hfloat | ⟨htext, hfloat⟩
  · rw [hfloat]
    rfl
  · rw [htext, setYamlScalar, hfloat]
    rfl

/-- Every scalar that is written sets its field. -/
theorem setYaml_cons (hf : p.shows f = true) (r : Record) (es : List (Bytes × YamlNode)) :
    setYaml r (yamlEntry (Bytes.ofString k.name) p f :: es) =
      setYaml (restore (Bytes.ofString k.name) p r f) es := by
  cases f with
  | kind => exact setYaml_plain (by cases k <;> rfl) es
  | int =>
      have hint := YamlScalar.ofPlain_ofInt (v := p.int) (by simpa [Payload.shows] using hf)
      refine setYaml_plain ?_ es
      rw [hint, setYamlScalar, Reading.int64?_toInt]
      rfl
  | float => exact setYaml_plain (setYamlScalar_float hf r) es
  | bool =>
      have hbool : p.bool = true := hf
      rw [restore, hbool]
      exact setYaml_plain (t := Bytes.ofString "true") rfl es
  | str => exact setYaml.eq_4 r _ es .str p.str (Field.ofName?_name .str)
  | children => cases hf

theorem setYaml_fields {fs : List Field} (hfs : ∀ f ∈ fs, p.shows f = true) (r : Record)
    (es : List (Bytes × YamlNode)) :
    setYaml r (fs.map (yamlEntry (Bytes.ofString k.name) p) ++ es) =
      setYaml (fs.foldl (restore (Bytes.ofString k.name) p) r) es := by
  induction fs generalizing r with
  | nil => rfl
  | cons f fs ih =>
      rw [List.map_cons, List.cons_append, setYaml_cons (hfs f List.mem_cons_self),
        ih fun g hg => hfs g (List.mem_cons_of_mem f hg), List.foldl_cons]

end Fields

section Reading

theorem ofYamls?_map {cs : List Tree}
    (hcs : ∀ c ∈ cs, setYaml blank (yamlEntries c) = some (ofTree c.canonical)) :
    ofYamls? ((cs.map yamlEntries).map .mapping) = some ((cs.map Tree.canonical).map ofTree) := by
  induction cs with
  | nil => exact ofYamls?.eq_1
  | cons c cs ih =>
      have hrest := ih fun e he => hcs e (List.mem_cons_of_mem c he)
      simp only [List.map_cons, ofYamls?, hcs c List.mem_cons_self, hrest, Option.bind_eq_bind,
        Option.bind_some]
      rfl

/-- The entries of a tree make its record. -/
theorem setYaml_yamlEntries {t : Tree} (ht : t.Complete) :
    setYaml blank (yamlEntries t) = some (ofTree t.canonical) := by
  induction t with
  | absent => cases ht
  | node h cs ih =>
      have hchildren := ofYamls?_map fun c hc => ih c hc (ht.children c hc)
      rw [yamlEntries_node, setYaml_fields fun f => Payload.shows_of_mem, foldl_restore,
        Tree.canonical_node, ofTree_node, h.payload_canonical, h.kind_canonical]
      split
      next hcs =>
        subst hcs
        exact setYaml.eq_1 _
      next =>
        rw [setYaml.eq_5 _ childrenKey _ _ (Field.ofName?_name .children), hchildren,
          Option.bind_some, setYaml.eq_1]
        rfl

end Reading

section Lines

variable {column : Nat} {kind : Bytes} {p : Payload} {rest : Bytes}

theorem nextLine_yamlLine (column : Nat) (f : Field) (value more : Bytes) :
    nextLine (Bytes.blanks column ++ yamlLine f value ++ more) =
      ⟨column, Bytes.ofString f.name ++ 58 :: 32 :: (value ++ 10 :: more)⟩ := by
  have hcolon : Bytes.ofString ": " = [58, 32] := rfl
  have hbytes : Bytes.blanks column ++ yamlLine f value ++ more =
      Bytes.blanks column ++ (Bytes.ofString f.name ++ 58 :: 32 :: (value ++ 10 :: more)) := by
    simp [yamlLine, hcolon]
  rw [hbytes, nextLine_word f.isWord_name]

theorem readsEntries_fields {fs : List Field} {tail : Bytes} {es : List (Bytes × YamlNode)}
    (keys : List Bytes) (hfs : fs.Nodup) (hchildren : .children ∉ fs)
    (hvalues : ∀ f ∈ fs, ReadsValue (yamlText kind p f) (yamlValue kind p f))
    (hkeys : ∀ f, f ∈ fs ∨ f = .children → Bytes.ofString f.name ∉ keys)
    (hleft : LeftOf (column + 1) (nextLine tail))
    (htail : ∀ keys, childrenKey ∉ keys → ReadsEntries column keys (nextLine tail) es rest) :
    ReadsEntries column keys
        (nextLine ((fs.flatMap fun f => Bytes.blanks column ++ yamlLine f (yamlText kind p f)) ++
          tail)) (fs.map (yamlEntry kind p) ++ es) rest ∧
      LeftOf (column + 1) (nextLine ((fs.flatMap fun f =>
        Bytes.blanks column ++ yamlLine f (yamlText kind p f)) ++ tail)) := by
  induction fs generalizing keys with
  | nil => exact ⟨htail keys (hkeys .children (.inr rfl)), hleft⟩
  | cons f fs ih =>
      obtain ⟨hnew, hfs⟩ := List.nodup_cons.mp hfs
      obtain ⟨hf, hchildren⟩ := not_or.mp (mt List.mem_cons.mpr hchildren)
      have hkeys' : ∀ g, g ∈ fs ∨ g = .children →
          Bytes.ofString g.name ∉ Bytes.ofString f.name :: keys := by
        intro g hg
        refine List.not_mem_cons_of_ne_of_not_mem (Field.ofString_name_ne ?_)
          (hkeys g (hg.imp_left (List.mem_cons_of_mem f)))
        rintro rfl
        exact hg.elim hnew fun h => hf h.symm
      obtain ⟨hrest, hleft'⟩ := ih _ hfs hchildren
        (fun g hg => hvalues g (List.mem_cons_of_mem f hg)) hkeys'
      rw [List.flatMap_cons, List.append_assoc, nextLine_yamlLine]
      exact ⟨.value f.isWord_name (hkeys f (.inl List.mem_cons_self))
        (hvalues f List.mem_cons_self) hleft' hrest, fun _ => Nat.lt_succ_self column⟩

def yamlChildren (column : Nat) (rest : Bytes) (cs : List Record) : Bytes :=
  if cs = [] then rest
  else Bytes.blanks column ++ Bytes.ofString "children:\n" ++ yamlAllOnto column rest cs

theorem yamlOnto_node (column : Nat) (rest : Bytes) (h : Head) (cs : List Tree) :
    Bytes.blanks column ++ yamlOnto column rest (ofTree (.node h cs)) =
      (h.payload.fields.flatMap fun f => Bytes.blanks column ++
        yamlLine f (yamlText (Bytes.ofString h.kind.name) h.payload f)) ++
          yamlChildren column rest (cs.map ofTree) := by
  rw [ofTree_node, yamlOnto, ← List.append_assoc, yamlFields_eq]
  rfl

/-- How the lines of a tree are read that starts at a column: the kind comes first. -/
structure ReadsTree (column : Nat) (rest : Bytes) (t : Tree) : Prop where
  kind : ∃ b, yamlOnto column rest (ofTree t) = Bytes.ofString Field.kind.name ++ 58 :: 32 :: b
  entries : ReadsEntries column [] ⟨column, yamlOnto column rest (ofTree t)⟩ (yamlEntries t) rest

theorem yamlAllOnto_cons (column : Nat) (rest : Bytes) (r : Record) (rs : List Record) :
    yamlAllOnto column rest (r :: rs) = Bytes.blanks column ++
      45 :: 32 :: yamlOnto (column + 2) (yamlAllOnto column rest rs) r := by
  rw [yamlAllOnto, List.append_assoc]
  rfl

theorem nextLine_yamlAllOnto (column : Nat) (rest : Bytes) (r : Record) (rs : List Record) :
    nextLine (yamlAllOnto column rest (r :: rs)) =
      ⟨column, 45 :: 32 :: yamlOnto (column + 2) (yamlAllOnto column rest rs) r⟩ := by
  rw [yamlAllOnto_cons]
  exact nextLine_blanks column (by decide) _

theorem nextLine_yamlChildren (column : Nat) (rest : Bytes) (r : Record) (rs : List Record) :
    nextLine (yamlChildren column rest (r :: rs)) =
      ⟨column, childrenKey ++ 58 :: 10 :: (Bytes.blanks column ++
        45 :: 32 :: yamlOnto (column + 2) (yamlAllOnto column rest rs) r)⟩ := by
  have hkey : Bytes.ofString "children:\n" = childrenKey ++ [58, 10] := rfl
  rw [yamlChildren, if_neg (List.cons_ne_nil r rs), hkey, yamlAllOnto_cons, List.append_assoc,
    List.append_assoc]
  exact nextLine_word Field.children.isWord_name column _

theorem leftOf_yamlAllOnto (hrest : LeftOf (column + 1) (nextLine rest)) (rs : List Record) :
    LeftOf (column + 1) (nextLine (yamlAllOnto column rest rs)) := by
  cases rs with
  | nil => exact hrest
  | cons r rs =>
      rw [nextLine_yamlAllOnto]
      exact fun _ => Nat.lt_succ_self column

theorem readsItems_yamlAllOnto {cs : List Tree}
    (hcs : ∀ c ∈ cs, ∀ {rest}, LeftOf (column + 2) (nextLine rest) →
      ReadsTree (column + 2) rest c) (hrest : LeftOf column (nextLine rest)) :
    ReadsItems column (nextLine (yamlAllOnto column rest (cs.map ofTree)))
      ((cs.map yamlEntries).map .mapping) rest := by
  induction cs with
  | nil => exact .nil hrest
  | cons c cs ih =>
      have hmore := ih fun e he => hcs e (List.mem_cons_of_mem c he)
      have hleft := leftOf_yamlAllOnto (hrest.mono (Nat.le_succ column)) (cs.map ofTree)
      obtain ⟨⟨b, hkind⟩, hentries⟩ := hcs c List.mem_cons_self (hleft.mono (Nat.le_succ _))
      rw [List.map_cons, nextLine_yamlAllOnto, hkind]
      rw [hkind] at hentries
      exact .mapping Field.kind.isWord_name (.inl rfl) hentries hmore

/-- The lines of the children end the lines of their node. -/
theorem readsEntries_yamlChildren {cs : List Tree} {keys : List Bytes}
    (hcs : ∀ c ∈ cs, ∀ {rest}, LeftOf (column + 2) (nextLine rest) →
      ReadsTree (column + 2) rest c) (hrest : LeftOf column (nextLine rest))
    (hkeys : childrenKey ∉ keys) :
    ReadsEntries column keys (nextLine (yamlChildren column rest (cs.map ofTree)))
      (if cs = [] then [] else [(childrenKey, .sequence ((cs.map yamlEntries).map .mapping))])
      rest := by
  have hitems := readsItems_yamlAllOnto hcs hrest
  cases cs with
  | nil => exact .nil keys hrest
  | cons c cs =>
      rw [List.map_cons, nextLine_yamlAllOnto] at hitems
      rw [List.map_cons, nextLine_yamlChildren, if_neg (List.cons_ne_nil c cs)]
      exact .sequence Field.children.isWord_name hkeys hrest hitems

theorem leftOf_yamlChildren (hrest : LeftOf column (nextLine rest)) (cs : List Record) :
    LeftOf (column + 1) (nextLine (yamlChildren column rest cs)) := by
  cases cs with
  | nil => exact hrest.mono (Nat.le_succ column)
  | cons r rs =>
      rw [nextLine_yamlChildren]
      exact fun _ => Nat.lt_succ_self column

theorem exists_yamlOnto_eq (column : Nat) (rest kind : Bytes) (p : Payload) (cs : List Record) :
    ∃ b, yamlOnto column rest (node kind p cs) =
      Bytes.ofString Field.kind.name ++ 58 :: 32 :: b := by
  rw [yamlOnto, yamlFields, yamlLine]
  simp only [List.append_assoc]
  exact ⟨_, rfl⟩

/-- The lines of a tree are read as its entries if the next line starts left of them. -/
theorem readsTree {t : Tree} (ht : t.Complete)
    (htext : t.EachHead fun h => Utf8.isValid h.payload.str = true)
    (hrest : LeftOf column (nextLine rest)) : ReadsTree column rest t := by
  induction t generalizing column rest with
  | absent => cases ht
  | node h cs ih =>
      obtain ⟨hh, hcs⟩ := Tree.eachHead_node_iff.mp htext
      obtain ⟨b, hb⟩ := exists_yamlOnto_eq column rest (Bytes.ofString h.kind.name) h.payload
        (cs.map ofTree)
      rw [← ofTree_node] at hb
      refine ⟨⟨b, hb⟩, ?_⟩
      -- The keys of the fields are known when the children come, which is a key that is new.
      have hfields := (readsEntries_fields [] h.payload.nodup_fields
        (fun hmem => by cases Payload.shows_of_mem hmem)
        (fun f hf => readsValue_yamlText (k := h.kind) hh (Payload.shows_of_mem hf))
        (fun _ _ => List.not_mem_nil) (leftOf_yamlChildren hrest (cs.map ofTree))
        fun keys hkeys => readsEntries_yamlChildren
          (fun c hc => ih c hc (ht.children c hc) (hcs c hc)) hrest hkeys).1
      rw [← yamlOnto_node, hb, nextLine_word Field.kind.isWord_name, ← hb] at hfields
      rw [yamlEntries_node]
      exact hfields

theorem noReturn_yamlLine (column : Nat) (f : Field) {value : Bytes} (hvalue : 13 ∉ value) :
    13 ∉ Bytes.blanks column ++ yamlLine f value := by
  have hblanks : 13 ∉ Bytes.blanks column := Bytes.not_mem_blanks (by decide) column
  have hname : 13 ∉ Bytes.ofString f.name := f.isWord_name.not_mem (by decide)
  have hcolon : 13 ∉ Bytes.ofString ": " := by decide
  simp only [yamlLine, List.mem_append, not_or]
  exact ⟨hblanks, ⟨⟨hname, hcolon⟩, hvalue⟩, by decide⟩

theorem noReturn_yamlAllOnto (column : Nat) {cs : List Tree}
    (hcs : ∀ c ∈ cs, ∀ {rest}, 13 ∉ rest → 13 ∉ yamlOnto (column + 2) rest (ofTree c))
    (hrest : 13 ∉ rest) : 13 ∉ yamlAllOnto column rest (cs.map ofTree) := by
  induction cs with
  | nil => exact hrest
  | cons c cs ih =>
      have hblanks : 13 ∉ Bytes.blanks column := Bytes.not_mem_blanks (by decide) column
      have hdash : 13 ∉ Bytes.ofString "- " := by decide
      have hmore := ih fun e he => hcs e (List.mem_cons_of_mem c he)
      simp only [List.map_cons, yamlAllOnto, List.mem_append, not_or]
      exact ⟨⟨hblanks, hdash⟩, hcs c List.mem_cons_self hmore⟩

/-- Lines end with a newline alone. -/
theorem noReturn_yamlOnto (column : Nat) {t : Tree} (ht : t.Complete)
    (htext : t.EachHead fun h => Utf8.isValid h.payload.str = true) (hrest : 13 ∉ rest) :
    13 ∉ yamlOnto column rest (ofTree t) := by
  induction t generalizing column rest with
  | absent => cases ht
  | node h cs ih =>
      obtain ⟨hh, hcs⟩ := Tree.eachHead_node_iff.mp htext
      have hall := noReturn_yamlAllOnto column
        (fun c hc _ => ih c hc (column + 2) (ht.children c hc) (hcs c hc)) hrest
      have hfields : 13 ∉ h.payload.fields.flatMap fun f => Bytes.blanks column ++
          yamlLine f (yamlText (Bytes.ofString h.kind.name) h.payload f) := by
        intro hmem
        obtain ⟨f, hf, hmem⟩ := List.mem_flatMap.mp hmem
        have hvalue := readsValue_yamlText (k := h.kind) hh (Payload.shows_of_mem hf)
        exact noReturn_yamlLine column f hvalue.noReturn hmem
      have hchildren : 13 ∉ yamlChildren column rest (cs.map ofTree) := by
        have hblanks : 13 ∉ Bytes.blanks column := Bytes.not_mem_blanks (by decide) column
        have hkey : 13 ∉ Bytes.ofString "children:\n" := by decide
        unfold yamlChildren
        split
        · exact hrest
        · simp only [List.mem_append, not_or]
          exact ⟨⟨hblanks, hkey⟩, hall⟩
      intro hmem
      have hnode := List.mem_append_right (Bytes.blanks column) hmem
      rw [yamlOnto_node] at hnode
      exact (List.mem_append.mp hnode).elim hfields hchildren

end Lines

end Record

namespace Codec

open Record

theorem readYaml?_writeYaml {t : Tree} (ht : t.Complete)
    (htext : t.EachHead fun h => Utf8.isValid h.payload.str = true) :
    readYaml? (writeYaml (ofTree t)) = some (ofTree t.canonical) := by
  obtain ⟨⟨b, hkind⟩, hentries⟩ := readsTree ht htext
    (Yaml.leftOf_nextLine_nil 0)
  have hreturn : 13 ∉ yamlOnto 0 [] (ofTree t) := noReturn_yamlOnto 0 ht htext List.not_mem_nil
  have hrecord := setYaml_yamlEntries ht
  rw [hkind] at hentries hreturn
  rw [readYaml?, writeYaml, hkind,
    Yaml.parse?_mapping Field.kind.isWord_name (.inl rfl) hreturn hentries, Option.bind_some,
    ofYaml?, hrecord]

theorem head?_writeYaml {t : Tree} (ht : t.Complete) : (writeYaml (ofTree t)).head? = some 107 := by
  cases ht with
  | node =>
      rw [writeYaml, ofTree_node]
      obtain ⟨b, hb⟩ := exists_yamlOnto_eq 0 [] _ _ _
      rw [hb]
      rfl

/-- A text that is UTF-8 is read back from between its double quotes. A valid tree with such texts
is written in YAML with any indentation, and its text is read as the same tree up to the signs of
zeros and the payloads of NaNs: the two compare as zero. A bound that a reader may set to the nesting
of blocks is no part of this. -/
theorem read_write_yaml :
    (∀ {s : Bytes}, Utf8.isValid s = true → ∀ rest,
      Yaml.quoted? (Bytes.ofString (quoted s) ++ rest) = some (s, rest)) ∧
    ∀ (limit indent : Int) {t : Tree}, t.validate limit = .ok () →
      (t.EachHead fun h => Utf8.isValid h.payload.str = true) →
      ∃ b, write limit { format := .ok .yaml, indent } t = .ok b ∧
        read limit { format := .ok .yaml } b = .ok t.canonical ∧
        t.compare limit t.canonical = .ok 0 := by
  constructor
  · intro s hs rest
    rw [ofString_quoted]
    exact Yaml.quoted?_encode hs rest
  · intro limit indent t ht htext
    have hcomplete := Tree.complete_of_validateAt ht
    refine ⟨writeYaml (ofTree t), read_write_of_record (by decide) ht ?_ rfl ?_ ?_⟩
    · simpa only [Format.objection?_eq_none_iff (f := .yaml) (by decide) (by decide)] using htext
    · rw [head?_writeYaml hcomplete]
      decide
    · exact readYaml?_writeYaml hcomplete htext

/-- A text of a zero, a bell, a line end, a blank at each end, both marks, a delete, a blank that
does not break, a private character, one beyond the first plane that does not show and one that
does; and a call in a call with that text, a word that would be null without quotes, the least
integer, a NaN and an infinity. -/
theorem read_write_yaml_call :
    let text : Bytes := [0x20, 0x00, 0x07, 0x0A, 0x22, 0x5C, 0x7F, 0xC2, 0xA0, 0xEE, 0x80, 0x80,
      0xF3, 0xA0, 0x80, 0x81, 0xF0, 0x9F, 0x98, 0x80, 0x20]
    let call (nan : Binary64) := Tree.node .invocation [.node (.identifier text) [],
      .node .invocation [.node (.identifier "null") [],
        .node (.integer (-9223372036854775808)) [], .node (.float nan) []],
      .node (.float (.infinity true)) []]
    (Utf8.isValid text = true ∧
        Yaml.quoted? (Bytes.ofString (quoted text) ++ [58]) = some (text, [58])) ∧
      (call ⟨0xFFF0000000000001⟩).validate 2 = .ok () ∧
        ∃ b, write 2 { format := .ok .yaml, indent := 3 } (call ⟨0xFFF0000000000001⟩) = .ok b ∧
          read 2 { format := .ok .yaml } b = .ok (call .nan) := by
  intro text call
  have htext : Utf8.isValid text = true := by decide
  have hvalid : (call ⟨0xFFF0000000000001⟩).validate 2 = .ok () := rfl
  have htexts : (call ⟨0xFFF0000000000001⟩).EachHead fun h =>
      Utf8.isValid h.payload.str = true := by
    simp only [call, Tree.eachHead_node_iff, List.forall_mem_cons, List.not_mem_nil,
      false_implies, implies_true, and_true]
    decide
  obtain ⟨b, hwrite, hread, -⟩ := read_write_yaml.2 2 3 hvalid htexts
  exact ⟨⟨htext, read_write_yaml.1 htext [58]⟩, hvalid, b, hwrite, hread⟩

end Codec

end Arbor
