import Arbor.Proofs.Codec.JsonDepth
import Arbor.Proofs.Codec.Separation
import Arbor.Proofs.Codec.Toml
import Arbor.Proofs.Codec.Xml
import Arbor.Proofs.Codec.Yaml
import Arbor.Proofs.Tree.Symmetry

/-! Trees that compare as zero are written in the same bytes, and bytes tell trees apart. -/
namespace Arbor

namespace Binary64

variable {x y : Binary64}

theorem canonical_eq_iff : x.canonical = y.canonical ↔ x.Same y := by
  rw [← canonicalBits_eq_iff, canonical, canonical, mk.injEq]

/-- What does not tell NaNs apart does not tell a number from its canonical form. -/
theorem apply_canonical {α : Type} {f : Binary64 → α}
    (hnan : ∀ x, x.isNaN = true → f x = f nan) (hx : x.isZero = false) : f x.canonical = f x := by
  cases hxnan : x.isNaN with
  | true => rw [canonical_of_isNaN hxnan, hnan x hxnan]
  | false => rw [canonical_eq_self hx hxnan]

theorem isFinite_canonical (x : Binary64) : x.canonical.isFinite = x.isFinite := by
  cases hzero : x.isZero with
  | true =>
      have hmagnitude := isZero_iff.mp hzero
      rw [canonical_of_isZero hzero, isFinite, isFinite, hmagnitude]
      rfl
  | false => exact apply_canonical (fun x hx => (isFinite_of_isNaN hx).trans rfl) hzero

/-- Finite numbers have nothing but the signs of zeros to lose. -/
theorem canonical_eq_plusZero (hx : x.isFinite = true) : x.canonical = x.plusZero := by
  unfold plusZero
  split
  next hzero => exact canonical_of_isZero hzero
  next hzero =>
    refine canonical_eq_self (by simpa using hzero) ?_
    by_contra hnan
    cases hx.symm.trans (isFinite_of_isNaN (by simpa using hnan))

end Binary64

namespace Head

theorem Same.canonical_eq {h k : Head} (hk : h.Same k) : h.canonical = k.canonical := by
  cases hk with
  | refl => rfl
  | float hxy => rw [canonical, canonical, Binary64.canonical_eq_iff.mpr hxy]

theorem canonical_eq_plusZero {h : Head} (hh : h.payload.float.isFinite = true) :
    h.canonical = h.plusZero := by
  cases h with
  | float x => exact congrArg float (Binary64.canonical_eq_plusZero hh)
  | _ => rfl

end Head

namespace Tree

variable {t u : Tree}

theorem canonical_eq_iff : t.canonical = u.canonical ↔ t.Same u := by
  constructor
  · intro heq
    exact t.canonical_same.symm.trans (heq ▸ u.canonical_same)
  · intro hsame
    induction t generalizing u with
    | absent =>
        cases hsame with
        | absent => rfl
    | node h cs ih =>
        cases hsame with
        | node hhead hcs =>
            rw [canonical_node, canonical_node, hhead.canonical_eq,
              map_eq_of_forall₂ hcs fun c hc d hcd => ih c hc hcd]

theorem same_of_plusZero_eq (heq : t.plusZero = u.plusZero) : t.Same u :=
  t.plusZero_same.symm.trans (heq ▸ u.plusZero_same)

/-- Comparison has looked at the whole of trees that it finds to be the same. -/
theorem validate_of_compare_zero {limit : Int} (h : t.compare limit u = .ok 0) :
    t.validate limit = .ok () ∧ u.validate limit = .ok () :=
  ⟨validateAt_of_compareAt_zero h, validateAt_of_compareAt_zero (compareAt_swap h)⟩

theorem canonical_eq_plusZero (ht : t.EachHead fun h => h.payload.float.isFinite = true) :
    t.canonical = t.plusZero := by
  induction t with
  | absent => rfl
  | node h cs ih =>
      obtain ⟨hh, hcs⟩ := eachHead_node_iff.mp ht
      rw [canonical_node, plusZero_node, Head.canonical_eq_plusZero hh]
      congr 1
      exact List.map_congr_left fun c hc => ih c hc (hcs c hc)

/-- What does not tell a head from its canonical form holds of both trees or of neither. -/
theorem eachHead_canonical_iff {p : Head → Prop} (hp : ∀ h, p h.canonical ↔ p h) :
    t.canonical.EachHead p ↔ t.EachHead p := by
  induction t with
  | absent => exact Iff.rfl
  | node h cs ih =>
      rw [canonical_node, eachHead_node_iff, eachHead_node_iff, hp, List.forall_mem_map]
      exact and_congr_right fun _ => forall₂_congr ih

end Tree

namespace Payload

abbrev canonical (p : Payload) : Payload := { p with float := p.float.canonical }

theorem fields_canonical (p : Payload) : p.canonical.fields = p.fields := by
  have hshows : p.canonical.shows = p.shows := by
    funext f
    cases f with
    | float => rw [shows, shows, Binary64.isZero_canonical]
    | _ => rfl
  rw [fields, fields, hshows]

end Payload

namespace Record

section Writers

variable {t : Tree}

theorem foldr_canonical (onto : Record → Bytes → Bytes) {cs : List Tree}
    (hcs : ∀ c ∈ cs, ∀ rest, onto (ofTree c.canonical) rest = onto (ofTree c) rest) (rest : Bytes) :
    ((cs.map Tree.canonical).map ofTree).foldr onto rest = (cs.map ofTree).foldr onto rest := by
  rw [List.map_map, List.foldr_map, List.foldr_map]
  exact List.foldr_ext _ _ rest hcs

theorem yamlFields_canonical (column : Nat) (kind : Bytes) (p : Payload) :
    yamlFields column kind p.canonical = yamlFields column kind p := by
  suffices hlines : Bytes.blanks column ++ yamlFields column kind p.canonical =
      Bytes.blanks column ++ yamlFields column kind p from List.append_cancel_left hlines
  rw [yamlFields_eq, yamlFields_eq, p.fields_canonical]
  refine List.flatMap_congr fun f hf => ?_
  cases f with
  | float =>
      have hzero := Payload.isZero_of_mem_fields hf
      have htext := Binary64.apply_canonical (f := Yaml.writeFloat)
        (fun x hx => (Yaml.writeFloat_of_isNaN hx).trans rfl) hzero
      rw [yamlText, yamlText, htext]
  | _ => rfl

theorem yamlAllOnto_eq_foldr (column : Nat) (rest : Bytes) (rs : List Record) :
    yamlAllOnto column rest rs = rs.foldr (fun r tail =>
      Bytes.blanks column ++ Bytes.ofString "- " ++ yamlOnto (column + 2) tail r) rest := by
  induction rs with
  | nil => rfl
  | cons r rs ih => rw [yamlAllOnto, ih, List.foldr_cons]

theorem yamlOnto_canonical (column : Nat) (rest : Bytes) (t : Tree) :
    yamlOnto column rest (ofTree t.canonical) = yamlOnto column rest (ofTree t) := by
  induction t generalizing column rest with
  | absent => rfl
  | node h cs ih =>
      have hall := foldr_canonical (fun r tail =>
        Bytes.blanks column ++ Bytes.ofString "- " ++ yamlOnto (column + 2) tail r)
        (fun c hc tail => by rw [ih c hc]) rest
      rw [Tree.canonical_node, ofTree_node, ofTree_node, yamlOnto, yamlOnto, h.kind_canonical,
        h.payload_canonical, yamlFields_canonical, yamlAllOnto_eq_foldr, yamlAllOnto_eq_foldr, hall]
      simp only [List.map_eq_nil_iff]

theorem tomlFields_canonical (lead kind : Bytes) (p : Payload) :
    tomlFields lead kind p.canonical = tomlFields lead kind p := by
  rw [tomlFields_eq, tomlFields_eq, p.fields_canonical]
  refine List.flatMap_congr fun f hf => ?_
  cases f with
  | float =>
      have hzero := Payload.isZero_of_mem_fields hf
      have htext := Binary64.apply_canonical (f := Toml.writeFloat)
        (fun x hx => (Toml.writeFloat_of_isNaN hx).trans rfl) hzero
      rw [tomlText, tomlText, htext]
  | _ => rfl

theorem tomlAllOnto_eq_foldr (indent level : Nat) (rest : Bytes) (rs : List Record) :
    tomlAllOnto indent level rest rs = rs.foldr (fun r tail =>
      tomlHeader indent level ++ tomlOnto indent level tail r) rest := by
  induction rs with
  | nil => rfl
  | cons r rs ih => rw [tomlAllOnto, ih, List.foldr_cons]

theorem tomlOnto_canonical (indent level : Nat) (rest : Bytes) (t : Tree) :
    tomlOnto indent level rest (ofTree t.canonical) = tomlOnto indent level rest (ofTree t) := by
  induction t generalizing level rest with
  | absent => rfl
  | node h cs ih =>
      have hall := foldr_canonical (fun r tail =>
        tomlHeader indent (level + 1) ++ tomlOnto indent (level + 1) tail r)
        (fun c hc tail => by rw [ih c hc]) rest
      rw [Tree.canonical_node, ofTree_node, ofTree_node, tomlOnto, tomlOnto, h.kind_canonical,
        h.payload_canonical, tomlFields_canonical, tomlAllOnto_eq_foldr, tomlAllOnto_eq_foldr, hall]

theorem startTag_canonical (kind : Bytes) (p : Payload) :
    startTag kind p.canonical = startTag kind p := by
  rw [startTag_eq, startTag_eq, p.fields_canonical]
  congr 3
  refine List.flatMap_congr fun f hf => ?_
  cases f with
  | float =>
      have hzero := Payload.isZero_of_mem_fields hf
      have htext := Binary64.apply_canonical (f := Binary64.general)
        (fun x hx => if_pos hx) hzero
      simp only [attributeRaw, attributeValue, htext]
  | _ => rfl

theorem xmlAllOnto_eq_foldr (indent level : Nat) (rest : Bytes) (rs : List Record) :
    xmlAllOnto indent level rest rs = rs.foldr (fun r tail =>
      xmlBreak indent level ++ xmlOnto indent level tail r) rest := by
  induction rs with
  | nil => rfl
  | cons r rs ih => rw [xmlAllOnto, ih, List.foldr_cons]

theorem xmlOnto_canonical (indent level : Nat) (rest : Bytes) (t : Tree) :
    xmlOnto indent level rest (ofTree t.canonical) = xmlOnto indent level rest (ofTree t) := by
  induction t generalizing level rest with
  | absent => rfl
  | node h cs ih =>
      have hall := foldr_canonical (fun r tail =>
        xmlBreak indent (level + 1) ++ xmlOnto indent (level + 1) tail r)
        (fun c hc tail => by rw [ih c hc])
      rw [Tree.canonical_node, ofTree_node, ofTree_node, xmlOnto, xmlOnto, h.kind_canonical,
        h.payload_canonical, startTag_canonical]
      simp only [xmlAllOnto_eq_foldr, hall, List.map_eq_nil_iff]

theorem isFinite_ofTree_canonical (t : Tree) :
    (ofTree t.canonical).isFinite = (ofTree t).isFinite := by
  rw [Bool.eq_iff_iff, isFinite_ofTree_iff, isFinite_ofTree_iff]
  refine Tree.eachHead_canonical_iff fun h => ?_
  rw [h.payload_canonical, Binary64.isFinite_canonical]

end Writers

end Record

namespace Codec

open Record

variable {limit indent : Int} {f : Format} {t u : Tree} {b : Bytes}

theorem writeRecord_canonical (indent : Int) (t : Tree) (f : Format) :
    writeRecord indent (ofTree t.canonical) f = writeRecord indent (ofTree t) f := by
  cases f with
  | json =>
      rw [writeRecord, writeRecord, writeJson?, writeJson?, isFinite_ofTree_canonical]
      cases hfinite : (ofTree t).isFinite with
      | false => rfl
      | true =>
          rw [Tree.canonical_eq_plusZero (isFinite_ofTree_iff.mp hfinite), toJson_plusZero]
  | yaml => rw [writeRecord, writeRecord, writeYaml, writeYaml, yamlOnto_canonical]
  | toml => rw [writeRecord, writeRecord, writeToml, writeToml, tomlOnto_canonical]
  | xml => rw [writeRecord, writeRecord, writeXml, writeXml, xmlOnto_canonical]
  | cbor =>
      rw [writeRecord, writeRecord, writeCbor_ofTree, writeCbor_ofTree, bytes_coded_canonical]
  | proto => rfl

/-- A tree and the tree that is read back are written alike. -/
theorem write_canonical_eq_ok_iff (hf : f ≠ .proto) :
    write limit { format := .ok f, indent } t.canonical = .ok b ↔
      write limit { format := .ok f, indent } t = .ok b := by
  have hvalid : t.canonical.validate limit = .ok () ↔ t.validate limit = .ok () :=
    ⟨t.canonical_same.symm.validateAt, t.canonical_same.validateAt⟩
  have htext : (t.canonical.EachHead fun h => Format.objection? (some f) h.payload.str = none) ↔
      t.EachHead fun h => Format.objection? (some f) h.payload.str = none :=
    Tree.eachHead_canonical_iff fun h => by rw [h.payload_canonical]
  rw [write_eq_ok_iff hf, write_eq_ok_iff hf, hvalid, htext, writeRecord_canonical]

theorem write_eq_ok_iff_of_same (hf : f ≠ .proto) (h : t.Same u) :
    write limit { format := .ok f, indent } t = .ok b ↔
      write limit { format := .ok f, indent } u = .ok b := by
  rw [← write_canonical_eq_ok_iff hf, Tree.canonical_eq_iff.mpr h, write_canonical_eq_ok_iff hf]

/-- The bytes of a tree that is not too deep, in the formats in lines that know all numbers. -/
theorem read_of_write (hf : f = .yaml ∨ f = .toml ∨ f = .xml) (hdepth : t.depth ≤ 5000)
    (h : write limit { format := .ok f, indent } t = .ok b) :
    read limit { format := .ok f } b = .ok t.canonical := by
  have hproto : f ≠ .proto := by
    rcases hf with rfl | rfl | rfl <;> decide
  obtain ⟨ht, htext, hwrite⟩ := (write_eq_ok_iff hproto).mp h
  have hcomplete := Tree.complete_of_validateAt ht
  have hread : b.head? ≠ some 0x28 ∧ readRecord? b f = some (ofTree t.canonical) := by
    rcases hf with rfl | rfl | rfl
    · simp only [Format.objection?_eq_none_iff (f := .yaml) (by decide) (by decide)] at htext
      obtain rfl : writeYaml (ofTree t) = b := Except.ok.inj hwrite
      rw [head?_writeYaml hcomplete]
      exact ⟨by decide, readYaml?_writeYaml hcomplete htext⟩
    · simp only [Format.objection?_eq_none_iff (f := .toml) (by decide) (by decide)] at htext
      obtain rfl : writeToml indent (ofTree t) = b := Except.ok.inj hwrite
      rw [head?_writeToml hcomplete]
      exact ⟨by decide, readToml?_writeToml hcomplete htext indent⟩
    · simp only [Format.objection?_xml_eq_none_iff] at htext
      obtain rfl : writeXml indent (ofTree t) = b := Except.ok.inj hwrite
      rw [writeXml, head?_xmlHeader]
      exact ⟨by decide, readXml?_writeXml hcomplete hdepth htext indent⟩
  exact read_of_record hproto hread.1 (t.canonical_same.validateAt ht) hread.2

theorem same_of_write (hf : f ≠ .proto) (ht : t.depth ≤ 5000) (hu : u.depth ≤ 5000)
    (hcounted : f = .cbor → t.Counted ∧ u.Counted)
    (htb : write limit { format := .ok f, indent } t = .ok b)
    (hub : write limit { format := .ok f, indent } u = .ok b) : t.Same u := by
  cases f with
  | json =>
      have hread := read_of_write_json htb
      rw [read_of_write_json hub, if_pos ht, if_pos hu] at hread
      exact (Tree.same_of_plusZero_eq (Except.ok.inj hread)).symm
  | yaml | toml | xml =>
      have hread := read_of_write (by simp) ht htb
      rw [read_of_write (by simp) hu hub] at hread
      exact (Tree.canonical_eq_iff.mp (Except.ok.inj hread)).symm
  | cbor =>
      -- readers do not take all of these trees, so the bytes are compared themselves
      obtain ⟨hcounted, hcounted'⟩ := hcounted rfl
      obtain ⟨-, -, htb⟩ := (write_eq_ok_iff hf).mp htb
      obtain ⟨-, -, hub⟩ := (write_eq_ok_iff hf).mp hub
      have hbytes : t.coded.bytes = u.coded.bytes := by
        rw [← writeCbor_ofTree, ← writeCbor_ofTree]
        exact Except.ok.inj (htb.trans hub.symm)
      exact Tree.canonical_eq_iff.mp
        (Tree.toldApart hcounted hcounted' [] [] (congrArg (· ++ []) hbytes)).1
  | proto => exact absurd rfl hf

theorem write_proto_eq_ok_iff :
    write limit { format := .ok .proto, indent } t = .ok b ↔
      t.validate limit = .ok () ∧ t.message = b := by
  rw [← Tree.writeProto_eq, write, writeWith, check_bind_eq_ok_iff, mapError_eq_ok_iff]
  refine and_congr_right fun _ => ?_
  show (.ok (writeProto t) : Except CodecError Bytes) = .ok b ↔ writeProto t = b
  rw [Except.ok.injEq]

/-- Encodings are canonical, for any two trees, one limit and one indentation. In the formats of
records two outputs for trees of at most five thousand levels are the same bytes exactly if the
trees compare as zero, and trees that do so are written together or not at all, in binary fields
too. In binary fields two outputs are the same bytes exactly if the trees are equal but for the
signs of zeros. -/
theorem encodings_canonical (limit indent : Int) (a b : Tree) :
    (∀ f : Format, f ≠ .proto → a.depth ≤ 5000 → b.depth ≤ 5000 →
      (f = .cbor → a.Counted ∧ b.Counted) → ∀ x y : Bytes,
      write limit { format := .ok f, indent } a = .ok x →
      write limit { format := .ok f, indent } b = .ok y →
      (x = y ↔ a.compare limit b = .ok 0)) ∧
    (a.compare limit b = .ok 0 → ∀ f : Format,
      (∃ x, write limit { format := .ok f, indent } a = .ok x) ↔
        ∃ y, write limit { format := .ok f, indent } b = .ok y) ∧
    ∀ x y : Bytes, write limit { format := .ok .proto, indent } a = .ok x →
      write limit { format := .ok .proto, indent } b = .ok y →
      (x = y ↔ a.plusZero = b.plusZero) := by
  have hsame : a.compare limit b = .ok 0 → a.Same b := by
    intro hzero
    obtain ⟨ha, hb⟩ := Tree.validate_of_compare_zero hzero
    exact Tree.same_of_compare (Tree.complete_of_validateAt ha) (Tree.complete_of_validateAt hb)
      hzero
  refine ⟨?_, ?_, ?_⟩
  · intro f hf ha hb hcounted x y hx hy
    constructor
    · rintro rfl
      obtain ⟨hvalid, -⟩ := (write_eq_ok_iff hf).mp hy
      exact Tree.compare_of_same hvalid (same_of_write hf ha hb hcounted hx hy)
    · intro hzero
      rw [write_eq_ok_iff_of_same hf (hsame hzero), hy] at hx
      exact (Except.ok.inj hx).symm
  · intro hzero f
    by_cases hf : f = .proto
    · subst hf
      obtain ⟨ha, hb⟩ := Tree.validate_of_compare_zero hzero
      exact iff_of_true ⟨_, write_proto ha⟩ ⟨_, write_proto hb⟩
    · simp only [write_eq_ok_iff_of_same hf (hsame hzero)]
  · intro x y hx hy
    obtain ⟨-, rfl⟩ := write_proto_eq_ok_iff.mp hx
    obtain ⟨-, rfl⟩ := write_proto_eq_ok_iff.mp hy
    exact Tree.message_eq_iff

/-- A negative NaN with a payload and the usual one: the same bytes in CBOR and two encodings in
binary fields. -/
theorem encodings_canonical_nan :
    let literal (x : Binary64) := Tree.node .expression [.node (.float x) []]
    let one := literal ⟨0xFFF0000000000001⟩
    let other := literal .nan
    ∃ x y x' y' : Bytes,
      (write 1 { format := .ok .cbor } one = .ok x ∧ write 1 { format := .ok .cbor } other = .ok y ∧
        x = y) ∧
      (write 1 { format := .ok .proto } one = .ok x' ∧
        write 1 { format := .ok .proto } other = .ok y' ∧ x' ≠ y') ∧
      ∃ z, write 1 { format := .ok .yaml } other = .ok z := by
  intro literal one other
  have hvalid : one.validate 1 = .ok () ∧ other.validate 1 = .ok () := ⟨rfl, rfl⟩
  have hdepth : one.depth ≤ 5000 ∧ other.depth ≤ 5000 := by
    rw [Tree.depth_eq_levels, Tree.depth_eq_levels]
    decide
  have hcounted : one.Counted ∧ other.Counted := by
    simp only [one, other, literal, Tree.Counted, Tree.eachNode_node_iff, List.forall_mem_cons,
      List.not_mem_nil, false_implies, implies_true, and_true]
    decide
  have htext : (one.EachHead fun h => Utf8.isValid h.payload.str = true) ∧
      other.EachHead fun h => Utf8.isValid h.payload.str = true := by
    simp only [one, other, literal, Tree.eachHead_node_iff, List.forall_mem_cons,
      List.not_mem_nil, false_implies, implies_true, and_true]
    decide
  obtain ⟨hrecords, htogether, hproto⟩ := encodings_canonical 1 0 one other
  have hcbor := hrecords .cbor (by decide) hdepth.1 hdepth.2 (fun _ => hcounted) _ _
    (write_cbor hvalid.1 htext.1) (write_cbor hvalid.2 htext.2)
  have hfields := hproto _ _ (write_proto hvalid.1) (write_proto hvalid.2)
  refine ⟨_, _, _, _, ⟨write_cbor hvalid.1 htext.1, write_cbor hvalid.2 htext.2, hcbor.mpr rfl⟩,
    ⟨write_proto hvalid.1, write_proto hvalid.2, ?_⟩, ?_⟩
  · intro hbytes
    have hplus := hfields.mp hbytes
    cases hplus
  · refine (htogether rfl .yaml).mp ⟨writeYaml (ofTree one), ?_⟩
    exact write_eq (by decide) (by decide) hvalid.1 htext.1 rfl

end Codec

end Arbor
