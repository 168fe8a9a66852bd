import Arbor.Proofs.Codec.Proto
import Arbor.Proofs.Codec.Record
import Arbor.Proofs.Json.Value
import Arbor.Proofs.Tree.Shape

/-! Trees in JSON are read back with any indentation. -/
namespace Arbor

theorem Binary64.isFinite_plusZero {x : Binary64} (hx : x.isFinite = true) :
    x.plusZero.isFinite = true := by
  unfold plusZero
  split
  · decide
  · exact hx

namespace Record

open JsonValue

theorem ofMapped?_name (f : Field) :
    Field.ofMapped? Utf8.foldAscii (Bytes.ofString f.name) = some f := by
  cases f <;> rfl

theorem toJsons_eq_map (rs : List Record) : toJsons rs = rs.map toJson := by
  induction rs with
  | nil => rfl
  | cons r rs ih => rw [toJsons, ih, List.map_cons]

def members (kind : Bytes) (p : Payload) (cs : List JsonValue) : List Member :=
  (Bytes.ofString Field.kind.name, .string kind) ::
    (member .int (p.int ≠ 0) (.number (Bytes.ofInt p.int.toInt)) ++
    (member .float (!p.float.isZero) (.number p.float.jsonText) ++
    (member .bool p.bool (.bool true) ++
    (member .str (p.str ≠ []) (.string p.str) ++
    member .children (cs ≠ []) (.array cs)))))

theorem toJson_node (kind : Bytes) (p : Payload) (cs : List Record) :
    toJson (.node kind p cs) = .object (members kind p (cs.map toJson)) := by
  simp only [toJson, members, List.cons_append, List.append_assoc, toJsons_eq_map, ne_eq,
    List.map_eq_nil_iff]

section Setting

variable {k : Bytes} {p : Payload} {rs : List Record} {ms : List Member}

theorem setMembers_kind (kind : Bytes) :
    setMembers (.node k p rs) ((Bytes.ofString Field.kind.name, .string kind) :: ms) =
      setMembers (.node kind p rs) ms := by
  simp only [setMembers, ofMapped?_name, setKind]

theorem setMembers_member {f : Field} {present : Bool} {v : JsonValue} {r r' : Record}
    (hskip : present = false → r = r')
    (hset : present = true → setMembers r ((Bytes.ofString f.name, v) :: ms) = setMembers r' ms) :
    setMembers r (member f present v ++ ms) = setMembers r' ms := by
  cases present with
  | false =>
      rw [hskip rfl]
      rfl
  | true => exact hset rfl

theorem setMembers_int (hp : p.int = 0) (v : Int64) :
    setMembers (.node k p rs) (member .int (v ≠ 0) (.number (Bytes.ofInt v.toInt)) ++ ms) =
      setMembers (.node k { p with int := v } rs) ms := by
  refine setMembers_member ?_ ?_
  · intro hv
    have hzero : v = 0 := by simpa using hv
    rw [hzero, ← hp]
  · intro _
    simp only [setMembers, ofMapped?_name, Reading.integer?_ofInt, Option.bind_some, setInt,
      mapPayload]

theorem setMembers_float (hp : p.float = .zero) {x : Binary64} (hx : x.isFinite = true) :
    setMembers (.node k p rs) (member .float (!x.isZero) (.number x.jsonText) ++ ms) =
      setMembers (.node k { p with float := x.plusZero } rs) ms := by
  refine setMembers_member ?_ ?_
  · intro hzero
    rw [Binary64.plusZero, if_pos (by simpa using hzero), ← hp]
  · intro hne
    have hzero : x.isZero = false := by simpa using hne
    have hplus : x.plusZero = x := if_neg (by simp [hzero])
    simp only [setMembers, ofMapped?_name, Binary64.numeral?_jsonText hzero hx, Option.bind_some,
      setFloat, mapPayload, hplus]

theorem setMembers_bool (hp : p.bool = false) (v : Bool) :
    setMembers (.node k p rs) (member .bool v (.bool true) ++ ms) =
      setMembers (.node k { p with bool := v } rs) ms := by
  refine setMembers_member ?_ ?_
  · intro hv
    rw [hv, ← hp]
  · intro hv
    simp only [setMembers, ofMapped?_name, setBool, mapPayload, hv]

theorem setMembers_str (hp : p.str = []) (v : Bytes) :
    setMembers (.node k p rs) (member .str (v ≠ []) (.string v) ++ ms) =
      setMembers (.node k { p with str := v } rs) ms := by
  refine setMembers_member ?_ ?_
  · intro hv
    have hnil : v = [] := by simpa using hv
    rw [hnil, ← hp]
  · intro _
    simp only [setMembers, ofMapped?_name, setStr, mapPayload]

theorem setMembers_children {vs : List JsonValue} {cs : List Record}
    (hvs : setItems [] vs = some cs) :
    setMembers (.node k p []) (member .children (vs ≠ []) (.array vs)) = some (.node k p cs) := by
  have hmember : setMembers (.node k p []) (member .children (vs ≠ []) (.array vs) ++ []) =
      setMembers (.node k p cs) [] := by
    refine setMembers_member ?_ ?_
    · intro hnil
      have hnil : vs = [] := by simpa using hnil
      rw [hnil, setItems] at hvs
      cases hvs
      rfl
    · intro _
      simp only [setMembers, ofMapped?_name, children, hvs, Option.bind_some, setChildren]
  rw [List.append_nil, setMembers] at hmember
  exact hmember

/-- The members of a node set its fields in a blank record. -/
theorem setMembers_members (kind : Bytes) {p : Payload} (hp : p.float.isFinite = true)
    {vs : List JsonValue} {cs : List Record} (hvs : setItems [] vs = some cs) :
    setMembers blank (members kind p vs) =
      some (.node kind { p with float := p.float.plusZero } cs) := by
  rw [members, blank, setMembers_kind, setMembers_int rfl, setMembers_float rfl hp,
    setMembers_bool rfl, setMembers_str rfl, setMembers_children hvs]

end Setting

/-- An object that is read as the record of a tree, but for the signs of zeros. -/
def ReadsAs (v : JsonValue) (t : Tree) : Prop :=
  ∃ ms, v = .object ms ∧ setMembers blank ms = some (ofTree t.plusZero)

theorem setItems_of_readsAs {vs : List JsonValue} {cs : List Tree}
    (h : List.Forall₂ ReadsAs vs cs) :
    setItems [] vs = some ((cs.map Tree.plusZero).map ofTree) := by
  induction h with
  | nil => exact setItems.eq_1 []
  | cons hv _ ih =>
      obtain ⟨ms, rfl, hms⟩ := hv
      have hblank : standing [] = blank := rfl
      rw [setItems, hblank, hms, List.tail_nil, ih]
      rfl

/-- What the form of each child has to do with the child, it has in each place of the list. -/
theorem forall₂_toJson {r : JsonValue → Tree → Prop} {cs : List Tree}
    (h : ∀ c ∈ cs, r (ofTree c).toJson c) :
    List.Forall₂ r ((cs.map ofTree).map toJson) cs := by
  rw [List.map_map, List.forall₂_map_left_iff, List.forall₂_same]
  exact h

/-- The object of a tree is read as the record of the tree. -/
theorem readsAs_toJson {t : Tree} (ht : t.Complete)
    (hfinite : t.EachHead fun h => h.payload.float.isFinite = true) :
    ReadsAs (ofTree t).toJson t := by
  induction t with
  | absent => cases ht
  | node h cs ih =>
      obtain ⟨hh, hcs⟩ := Tree.eachHead_node_iff.mp hfinite
      have hitems := setItems_of_readsAs
        (forall₂_toJson fun c hc => ih c hc (ht.children c hc) (hcs c hc))
      refine ⟨_, by rw [ofTree_node, toJson_node], ?_⟩
      rw [setMembers_members _ hh hitems, Tree.plusZero_node, ofTree_node, h.payload_plusZero,
        Head.kind_plusZero]

theorem ofJson?_toJson {t : Tree} (ht : t.Complete)
    (hfinite : t.EachHead fun h => h.payload.float.isFinite = true) :
    ofJson? (ofTree t).toJson = some (ofTree t.plusZero) := by
  obtain ⟨ms, hobject, hms⟩ := readsAs_toJson ht hfinite
  rw [hobject]
  exact hms

section Writing

theorem forall_mem_member {q : Member → Prop} {f : Field} {present : Bool} {v : JsonValue}
    (h : present = true → q (Bytes.ofString f.name, v)) : ∀ m ∈ member f present v, q m := by
  intro m hm
  unfold member at hm
  split at hm
  next hpresent =>
    rw [List.mem_singleton.mp hm]
    exact h hpresent
  next => cases hm

/-- A property of all members of a node, one field at a time. -/
theorem forall_mem_members {q : Member → Prop} {kind : Bytes} {p : Payload} {cs : List JsonValue}
    (hkind : q (Bytes.ofString Field.kind.name, .string kind))
    (hint : q (Bytes.ofString Field.int.name, .number (Bytes.ofInt p.int.toInt)))
    (hfloat : p.float.isZero = false →
      q (Bytes.ofString Field.float.name, .number p.float.jsonText))
    (hbool : q (Bytes.ofString Field.bool.name, .bool true))
    (hstr : q (Bytes.ofString Field.str.name, .string p.str))
    (hchildren : cs ≠ [] → q (Bytes.ofString Field.children.name, .array cs)) :
    ∀ m ∈ members kind p cs, q m := by
  intro m hm
  simp only [members, List.mem_cons, List.mem_append] at hm
  rcases hm with rfl | hm | hm | hm | hm | hm
  · exact hkind
  · exact forall_mem_member (fun _ => hint) m hm
  · refine forall_mem_member (fun hx => hfloat ?_) m hm
    simpa using hx
  · exact forall_mem_member (fun _ => hbool) m hm
  · exact forall_mem_member (fun _ => hstr) m hm
  · exact forall_mem_member (fun hcs => hchildren (of_decide_eq_true hcs)) m hm

theorem isValid_name (f : Field) : Utf8.isValid (Bytes.ofString f.name) = true := by
  cases f <;> rfl

/-- All that a tree with finite numbers and texts in UTF-8 holds can be written. -/
theorem writable_toJson {t : Tree} (htext : t.EachHead fun h => Utf8.isValid h.payload.str = true)
    (hfinite : t.EachHead fun h => h.payload.float.isFinite = true) :
    Writable (ofTree t).toJson := by
  induction t with
  | absent => exact .null
  | node h cs ih =>
      obtain ⟨hh, hcs⟩ := Tree.eachHead_node_iff.mp htext
      obtain ⟨hx, hxs⟩ := Tree.eachHead_node_iff.mp hfinite
      rw [ofTree_node, toJson_node]
      refine .object ?_ ?_
      · exact forall_mem_members (isValid_name .kind) (isValid_name .int)
          (fun _ => isValid_name .float) (isValid_name .bool) (isValid_name .str)
          (fun _ => isValid_name .children)
      · refine forall_mem_members (.string h.kind.isValid_name)
          (.number (Bytes.isNumeral_ofInt _)) (fun hzero => ?_) (.bool true) (.string hh)
          (fun _ => .array ?_)
        · obtain ⟨n, hn, -⟩ := Binary64.exists_numeral_jsonText hzero hx
          exact .number ⟨n, hn⟩
        · intro v hv
          simp only [List.map_map, List.mem_map, Function.comp_apply] at hv
          obtain ⟨c, hc, rfl⟩ := hv
          exact ih c hc (hcs c hc) (hxs c hc)

theorem nestingMembers_append (ms ns : List Member) :
    nestingMembers (ms ++ ns) = max (nestingMembers ms) (nestingMembers ns) := by
  induction ms with
  | nil => exact (Nat.zero_max _).symm
  | cons m ms ih => rw [List.cons_append, nestingMembers, nestingMembers, ih, Nat.max_assoc]

theorem nestingMembers_member (f : Field) (present : Bool) (v : JsonValue) :
    nestingMembers (member f present v) = if present then v.nesting else 0 := by
  cases present <;> simp [member, nestingMembers]

/-- Of the fields of a node only its children are nested. -/
theorem nestingMembers_members (kind : Bytes) (p : Payload) (cs : List JsonValue) :
    nestingMembers (members kind p cs) = if cs = [] then 0 else nestingAll cs + 1 := by
  simp only [members, nestingMembers, nestingMembers_append, nestingMembers_member, nesting,
    ite_self, Nat.zero_max, decide_eq_true_eq, ne_eq, ite_not]

/-- The deepest of items that each take two levels for one of a child, but for one. -/
theorem nestingAll_eq {vs : List JsonValue} {cs : List Tree}
    (h : List.Forall₂ (fun v c => v.nesting + 1 = 2 * c.levels) vs cs) (hne : cs ≠ []) :
    nestingAll vs + 1 = 2 * (cs.map Tree.levels).foldr max 0 := by
  induction h with
  | nil => exact absurd rfl hne
  | cons hv htail ih =>
      simp only [List.map_cons, nestingAll, List.foldr_cons]
      cases htail with
      | nil => simpa [nestingAll] using hv
      | cons _ _ =>
          have hrest := ih (List.cons_ne_nil _ _)
          omega

/-- Below the root every level of a tree is an object inside an array. -/
theorem nesting_toJson {t : Tree} (ht : t.Complete) :
    (ofTree t).toJson.nesting + 1 = 2 * t.levels := by
  induction t with
  | absent => cases ht
  | node h cs ih =>
      rw [ofTree_node, toJson_node, nesting, nestingMembers_members, Tree.levels, Tree.fold_node,
        ← Tree.levels]
      by_cases hnil : cs = []
      · subst hnil
        rfl
      · rw [if_neg (by simpa using hnil),
          nestingAll_eq (forall₂_toJson fun c hc => ih c hc (ht.children c hc)) hnil]
        omega

theorem areFinite_iff {rs : List Record} :
    areFinite rs = true ↔ ∀ r ∈ rs, r.isFinite = true := by
  induction rs with
  | nil => simp [areFinite]
  | cons r rs ih => simp [areFinite, ih]

theorem isFinite_ofTree_iff {t : Tree} :
    (ofTree t).isFinite = true ↔ t.EachHead fun h => h.payload.float.isFinite = true := by
  induction t with
  | absent => exact iff_of_true rfl (Tree.eachNode_absent _)
  | node h cs ih =>
      rw [ofTree_node, isFinite, Bool.and_eq_true, areFinite_iff, List.forall_mem_map,
        Tree.eachHead_node_iff]
      exact and_congr_right fun _ => forall₂_congr ih

theorem toJson_plusZero (t : Tree) : (ofTree t.plusZero).toJson = (ofTree t).toJson := by
  induction t with
  | absent => rfl
  | node h cs ih =>
      have hchildren : ((cs.map Tree.plusZero).map ofTree).map toJson =
          (cs.map ofTree).map toJson := by
        rw [List.map_map, List.map_map, List.map_map]
        exact List.map_congr_left ih
      rw [Tree.plusZero_node, ofTree_node, ofTree_node, toJson_node, toJson_node, hchildren,
        h.payload_plusZero, Head.kind_plusZero]
      unfold members
      rw [Binary64.isZero_plusZero]
      cases hzero : h.payload.float.isZero with
      | true => rfl
      | false => rw [Binary64.plusZero, if_neg (by simp [hzero])]

end Writing

end Record

namespace Codec

open Record

theorem isBlank_jsonLayout (indent : Int) : (jsonLayout indent).IsBlank := by
  unfold jsonLayout
  split
  · refine ⟨?_, ?_⟩
    · intro c hc
      cases hc
    · intro c hc
      rw [List.eq_of_mem_replicate hc]
      rfl
  · exact trivial

theorem isBlank_end : JsonValue.Blank [10] := by
  intro c hc
  rw [List.mem_singleton.mp hc]
  rfl

variable {limit indent : Int} {t : Tree}

def jsonBytes (indent : Int) (t : Tree) : Bytes :=
  (ofTree t).toJson.printOnto (jsonLayout indent) 0 [10]

theorem jsonBytes_plusZero (t : Tree) : jsonBytes indent t.plusZero = jsonBytes indent t := by
  rw [jsonBytes, toJson_plusZero, jsonBytes]

/-- A tree of five thousand levels is as deep as values may be nested. -/
theorem nesting_le_iff (ht : t.Complete) :
    (ofTree t).toJson.nesting ≤ JsonValue.maxNesting ↔ t.depth ≤ 5000 := by
  have hnesting := nesting_toJson ht
  rw [Tree.depth_eq_levels, JsonValue.maxNesting]
  omega

/-- Values that are laid out in lines must not be nested too deeply, those on one line may. -/
theorem writeJson?_ofTree_eq_some_iff {b : Bytes} :
    writeJson? indent (ofTree t) = some b ↔
      (t.EachHead fun h => h.payload.float.isFinite = true) ∧
        (0 < indent → (ofTree t).toJson.nesting ≤ JsonValue.maxNesting) ∧
          jsonBytes indent t = b := by
  rw [← isFinite_ofTree_iff, writeJson?]
  cases (ofTree t).isFinite with
  | false => simp
  | true =>
      simp only [Bool.not_true, Bool.false_eq_true, if_false, true_and,
        Option.ite_none_left_eq_some, Option.some.injEq, Bool.and_eq_true, decide_eq_true_eq,
        not_and, not_lt]
      rfl

theorem write_json (ht : t.validate limit = .ok ())
    (hnesting : 0 < indent → (ofTree t).toJson.nesting ≤ JsonValue.maxNesting)
    (htext : t.EachHead fun h => Utf8.isValid h.payload.str = true)
    (hfinite : t.EachHead fun h => h.payload.float.isFinite = true) :
    write limit { format := .ok .json, indent } t = .ok (jsonBytes indent t) := by
  refine write_eq (by decide) (by decide) ht htext ?_
  rw [writeRecord, writeJson?_ofTree_eq_some_iff.mpr ⟨hfinite, hnesting, rfl⟩]
  rfl

theorem head?_jsonBytes (ht : t.Complete) : (jsonBytes indent t).head? = some 123 := by
  cases ht with
  | node hcs =>
      rw [jsonBytes, ofTree_node, toJson_node, members, JsonValue.printOnto]
      rfl

theorem read_json (ht : t.validate limit = .ok ())
    (hnesting : (ofTree t).toJson.nesting ≤ JsonValue.maxNesting)
    (htext : t.EachHead fun h => Utf8.isValid h.payload.str = true)
    (hfinite : t.EachHead fun h => h.payload.float.isFinite = true) :
    read limit { format := .ok .json } (jsonBytes indent t) = .ok t.plusZero := by
  have hcomplete := Tree.complete_of_validateAt ht
  have hparse : JsonValue.parse? (jsonBytes indent t) = some (ofTree t).toJson :=
    JsonValue.parse?_print (isBlank_jsonLayout indent) (writable_toJson htext hfinite)
      hnesting isBlank_end
  have hrecord : readRecord? (jsonBytes indent t) .json = some (ofTree t.plusZero) := by
    rw [readRecord?, readJson?, hparse]
    exact ofJson?_toJson hcomplete hfinite
  exact read_of_record (by decide) (by rw [head?_jsonBytes hcomplete]; decide)
    (t.plusZero_same.validateAt ht) hrecord

/-- A valid tree with texts in UTF-8 and finite numbers that is not too deep is written in JSON with
any indentation, and its text is read as the same tree up to the signs of zeros: the two compare as
zero and have the same text. -/
theorem read_write_json {limit indent : Int} {t : Tree} (ht : t.validate limit = .ok ())
    (hdepth : t.depth ≤ 5000) (htext : t.EachHead fun h => Utf8.isValid h.payload.str = true)
    (hfinite : t.EachHead fun h => h.payload.float.isFinite = true) :
    ∃ b, write limit { format := .ok .json, indent } t = .ok b ∧
      read limit { format := .ok .json } b = .ok t.plusZero ∧
      t.compare limit t.plusZero = .ok 0 ∧
      write limit { format := .ok .json, indent } t.plusZero = .ok b := by
  have hnesting := (nesting_le_iff (Tree.complete_of_validateAt ht)).mpr hdepth
  have hplus : t.plusZero.validate limit = .ok () := t.plusZero_same.validateAt ht
  have hnesting' : (ofTree t.plusZero).toJson.nesting ≤ JsonValue.maxNesting := by
    rw [toJson_plusZero]
    exact hnesting
  have htext' : t.plusZero.EachHead fun h => Utf8.isValid h.payload.str = true :=
    htext.map fun h hh => by rwa [h.payload_plusZero]
  have hfinite' : t.plusZero.EachHead fun h => h.payload.float.isFinite = true :=
    hfinite.map fun h hh => by
      rw [h.payload_plusZero]
      exact Binary64.isFinite_plusZero hh
  refine ⟨jsonBytes indent t, write_json ht (fun _ => hnesting) htext hfinite,
    read_json ht hnesting htext hfinite, Tree.compare_of_same hplus t.plusZero_same.symm, ?_⟩
  rw [← jsonBytes_plusZero]
  exact write_json hplus (fun _ => hnesting') htext' hfinite'

/-- A statement with the least integer, a tenth, a negative zero, and a text of a quote, a tab, an
angle, a line separator and a character beyond the first plane, with two blanks a level. -/
theorem read_write_json_block :
    let text : Bytes := [0x22, 0x09, 0x3C, 0xE2, 0x80, 0xA8, 0xF0, 0x9F, 0x98, 0x80]
    let block (zero : Binary64) := Tree.node .block [.node .expression [.node .invocation [
      .node (.identifier text) [], .node (.integer (-9223372036854775808)) [],
      .node (.float ⟨0x3FB999999999999A⟩) [], .node (.float zero) []]]]
    (block ⟨0x8000000000000000⟩).validate 3 = .ok () ∧
      ∃ b, write 3 { format := .ok .json, indent := 2 } (block ⟨0x8000000000000000⟩) = .ok b ∧
        read 3 { format := .ok .json } b = .ok (block .zero) := by
  intro text block
  have hvalid : (block ⟨0x8000000000000000⟩).validate 3 = .ok () := rfl
  have hdepth : (block ⟨0x8000000000000000⟩).depth ≤ 5000 := by
    rw [Tree.depth_eq_levels]
    decide
  have htext : (block ⟨0x8000000000000000⟩).EachHead fun h =>
      Utf8.isValid h.payload.str = true := by
    simp only [block, Tree.eachHead_node_iff, List.forall_mem_cons, List.not_mem_nil,
      false_implies, implies_true, and_true]
    decide
  have hfinite : (block ⟨0x8000000000000000⟩).EachHead fun h =>
      h.payload.float.isFinite = true := by
    simp only [block, Tree.eachHead_node_iff, List.forall_mem_cons, List.not_mem_nil,
      false_implies, implies_true, and_true]
    decide
  obtain ⟨b, hwrite, hread, -⟩ := @read_write_json 3 2 _ hvalid hdepth htext hfinite
  exact ⟨hvalid, b, hwrite, hread⟩

end Codec

end Arbor
