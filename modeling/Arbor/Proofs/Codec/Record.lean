import Arbor.Codec.Basic
import Arbor.Proofs.Tree.Marked
import Arbor.Proofs.Tree.Traversal

/-! The record of a valid tree is turned into the tree again. -/
namespace Arbor

namespace Tree

def EachNode (p : Head → List Tree → Prop) (t : Tree) : Prop :=
  ∀ h cs, .node h cs ∈ t.nodes → p h cs

theorem eachNode_node_iff {p : Head → List Tree → Prop} {h : Head} {cs : List Tree} :
    EachNode p (.node h cs) ↔ p h cs ∧ ∀ c ∈ cs, EachNode p c := by
  constructor
  · intro hp
    refine ⟨hp h cs (mem_nodes_node.mpr (.inl rfl)), ?_⟩
    intro c hc l es he
    exact hp l es (mem_nodes_node.mpr (.inr ⟨c, hc, he⟩))
  · rintro ⟨hh, hcs⟩ l es he
    rcases mem_nodes_node.mp he with heq | ⟨c, hc, he⟩
    · cases heq
      exact hh
    · exact hcs c hc l es he

theorem eachNode_absent (p : Head → List Tree → Prop) : EachNode p .absent := by
  intro h cs hmem
  exact absurd hmem (by simp [nodes, inspect, inspectAll])

def EachHead (p : Head → Prop) : Tree → Prop := EachNode fun h _ => p h

theorem eachHead_node_iff {p : Head → Prop} {h : Head} {cs : List Tree} :
    EachHead p (.node h cs) ↔ p h ∧ ∀ c ∈ cs, EachHead p c := eachNode_node_iff

theorem EachHead.map {p q : Head → Prop} {f : Head → Head} (hf : ∀ h, p h → q (f h)) {t : Tree}
    (ht : EachHead p t) : EachHead q (fold .absent (fun h cs => .node (f h) cs) t) := by
  induction t with
  | absent => exact eachNode_absent _
  | node h cs ih =>
      obtain ⟨hh, hcs⟩ := eachHead_node_iff.mp ht
      rw [fold_node, eachHead_node_iff]
      refine ⟨hf h hh, ?_⟩
      intro c hc
      obtain ⟨d, hd, rfl⟩ := List.mem_map.mp hc
      exact ih d hd (hcs d hd)

end Tree

namespace Kind

theorem ofName?_name (k : Kind) : ofName? (Bytes.ofString k.name) = some k := by
  cases k <;> rfl

theorem isValid_name (k : Kind) : Utf8.isValid (Bytes.ofString k.name) = true := by
  cases k <;> rfl

end Kind

namespace Field

theorem ofNumber?_number (f : Field) : ofNumber? f.number = some f := by
  cases f <;> rfl

end Field

namespace Record

variable {limit : Int} {depth : Nat}

theorem ofTrees_eq_map (ts : List Tree) : ofTrees ts = ts.map ofTree := by
  induction ts with
  | nil => rfl
  | cons t ts ih => rw [ofTrees, ih, List.map_cons]

theorem ofTree_node (h : Head) (cs : List Tree) :
    ofTree (.node h cs) = node (Bytes.ofString h.kind.name) h.payload (cs.map ofTree) := by
  rw [ofTree, ofTrees_eq_map]

theorem toTreesAt_ofTree {cs : List Tree}
    (hcs : ∀ c ∈ cs, (ofTree c).toTreeAt limit depth = .ok c) :
    toTreesAt limit depth (cs.map ofTree) = .ok cs := by
  induction cs with
  | nil => rfl
  | cons c cs ih =>
      rw [List.map_cons, toTreesAt, hcs c List.mem_cons_self,
        ih fun e he => hcs e (List.mem_cons_of_mem c he)]
      rfl

/-- A valid tree is what its record stands for. -/
theorem toTreeAt_ofTree {t : Tree} (ht : t.validateAt limit depth = .ok ()) :
    (ofTree t).toTreeAt limit depth = .ok t := by
  induction t generalizing depth with
  | absent => exact absurd ht Tree.not_validateAt_absent
  | node h cs ih =>
      obtain ⟨hdepth, hcheck, hcs⟩ := Tree.validateAt_node_iff.mp ht
      have hchildren := toTreesAt_ofTree fun c hc => ih c hc (hcs c hc)
      have hkind : Tree.ofKind h.kind h.payload cs = .ok (.node h cs) := by
        rw [Tree.ofKind, hcheck, Head.ofPayload_payload]
        rfl
      rw [ofTree_node, toTreeAt, Tree.checkDepth_eq_ok_iff.mpr hdepth]
      simp only [Kind.ofName?_name, hchildren]
      exact hkind

theorem objectionAll?_eq_none_iff {f : Option Format} {rs : List Record} :
    objectionAll? f rs = none ↔ ∀ r ∈ rs, r.objection? f = none := by
  induction rs with
  | nil => simp [objectionAll?]
  | cons r rs ih =>
      rw [objectionAll?, List.forall_mem_cons, ← ih]
      cases r.objection? f <;> simp

/-- A format carries a tree if it carries the text of every node. -/
theorem objection?_ofTree_eq_none_iff {f : Option Format} {t : Tree} :
    (ofTree t).objection? f = none ↔
      t.EachHead fun h => Format.objection? f h.payload.str = none := by
  induction t with
  | absent => exact iff_of_true rfl (Tree.eachNode_absent _)
  | node h cs ih =>
      rw [ofTree_node, objection?, Tree.eachHead_node_iff]
      cases Format.objection? f h.payload.str with
      | some o => simp
      | none =>
          simp only [objectionAll?_eq_none_iff, List.forall_mem_map, true_and]
          exact forall₂_congr ih

end Record

/-- UTF-8 is all that a format asks for that carries every character. -/
theorem Format.objection?_eq_none_iff {f : Format} (hproto : f ≠ .proto) (hxml : f ≠ .xml)
    {b : Bytes} : Format.objection? (some f) b = none ↔ Utf8.isValid b = true := by
  unfold objection?
  simp [hproto, hxml]

namespace Codec

variable {limit indent : Int}

/-- What can be written in a format of records: a valid tree with texts that the format carries and a
record that it has a form for. -/
theorem write_eq_ok_iff {f : Format} (hproto : f ≠ .proto) {t : Tree} {b : Bytes} :
    write limit { format := .ok f, indent } t = .ok b ↔
      t.validate limit = .ok () ∧
        (t.EachHead fun h => Format.objection? (some f) h.payload.str = none) ∧
          writeRecord indent (Record.ofTree t) f = .ok b := by
  have hformat : ¬ (Except.ok f : Except FormatError Format).toOption = some .proto := by
    simpa [Except.toOption] using hproto
  have hcheck : checkText (.ok f) (Record.ofTree t) = .ok () ↔
      t.EachHead fun h => Format.objection? (some f) h.payload.str = none := by
    rw [← Record.objection?_ofTree_eq_none_iff, checkText, Except.toOption]
    cases (Record.ofTree t).objection? (some f) <;> simp
  have hplain : ∀ e : Except CodecError Bytes, (do
      let b ← e
      return if (false : Bool) = true then Zstd.rawCoder.compress b else b) = e := by
    intro e
    cases e <;> rfl
  rw [← hcheck, write, writeWith, writeValid, if_neg hformat]
  simp only [hplain, check_bind_eq_ok_iff, mapError_eq_ok_iff]
  rfl

theorem write_eq {f : Format} (hproto : f ≠ .proto) (hxml : f ≠ .xml) {t : Tree}
    (ht : t.validate limit = .ok ())
    (htext : t.EachHead fun h => Utf8.isValid h.payload.str = true) {b : Bytes}
    (hb : writeRecord indent (Record.ofTree t) f = .ok b) :
    write limit { format := .ok f, indent } t = .ok b := by
  refine (write_eq_ok_iff hproto).mpr ⟨ht, ?_, hb⟩
  simpa only [Format.objection?_eq_none_iff hproto hxml] using htext

theorem unwrapWith_eq {z : Zstd.Coder} {b : Bytes} (hb : b.head? ≠ some 0x28) :
    unwrapWith z false b = .ok b := by
  have hplain : Zstd.magic.isPrefixOf b = false := by
    cases b with
    | nil => rfl
    | cons c b =>
        have hc : (0x28 == c) = false := by
          rw [beq_eq_false_iff_ne]
          rintro rfl
          exact hb rfl
        rw [Zstd.magic, List.isPrefixOf, hc, Bool.false_and]
  rw [unwrapWith, hplain]
  rfl

/-- Reading bytes that are no frame is reading a record and turning it into a tree. -/
theorem read_eq {f : Format} (hproto : f ≠ .proto) {b : Bytes} (hb : b.head? ≠ some 0x28) :
    read limit { format := .ok f } b =
      (encoded (readRecord? b f) >>= fun r => (r.toTree limit).mapError .fault) := by
  have hformat : ¬ (Except.ok f : Except FormatError Format).toOption = some .proto := by
    simpa [Except.toOption] using hproto
  rw [read, readWith, unwrapWith_eq hb]
  simp only [readPlain, if_neg hformat]
  rfl

/-- Bytes that hold the record of a valid tree are read as the tree. -/
theorem read_of_record {f : Format} (hproto : f ≠ .proto) {b : Bytes} (hb : b.head? ≠ some 0x28)
    {t : Tree} (ht : t.validate limit = .ok ())
    (hrecord : readRecord? b f = some (Record.ofTree t)) :
    read limit { format := .ok f } b = .ok t := by
  have htree : (Record.ofTree t).toTree limit = .ok t := Record.toTreeAt_ofTree ht
  rw [read_eq hproto hb, hrecord]
  simp only [encoded, bind, Except.bind, htree]
  rfl

end Codec

end Arbor
