import Arbor.Proofs.Codec.JsonDepth
import Arbor.Proofs.Number.Spelling
import Arbor.Proofs.Tree.Copy

/-! The first text in pre-order that a format does not carry is the one it reports. -/
namespace Arbor

/-- The failures of writing that are those of an encoding, rather than of a tree or of the choice of
a format. -/
def CodecError.IsEncoding : CodecError → Prop
  | .text _ _ _ _ | .encoding => True
  | .fault _ | .noFormat _ => False

namespace Format

def Carries (f : Format) (b : Bytes) : Prop :=
  Utf8.isValid b = true ∧ (f = .xml → ∀ c ∈ Utf8.chars b, isXmlChar c = true)

/-- What a format has against a text: it is not UTF-8, or else its first character outside those
of XML. -/
inductive Objects (f : Format) (b : Bytes) : Objection → Prop
  | notUtf8 : Utf8.isValid b = false → Objects f b .notUtf8
  | character {before after : List Char} {c : Char} : f = .xml → Utf8.isValid b = true →
      Utf8.chars b = before ++ c :: after → (∀ d ∈ before, isXmlChar d = true) →
      isXmlChar c = false → Objects f b (.character c)

variable {f : Format} {b : Bytes} {o : Objection}

theorem objection?_eq_some_iff (hf : f ≠ .proto) :
    objection? (some f) b = some o ↔ f.Objects b o := by
  have hformat : ¬ some f = some .proto := by simpa using hf
  rw [objection?, if_neg hformat]
  cases hvalid : Utf8.isValid b with
  | false =>
      simp only [Bool.not_false, if_true, Option.some.injEq]
      constructor
      · rintro rfl
        exact .notUtf8 hvalid
      · rintro (_ | ⟨-, hvalid'⟩)
        · rfl
        · cases hvalid.symm.trans hvalid'
  | true =>
      simp only [Bool.not_true, Bool.false_eq_true, if_false, Option.some.injEq]
      constructor
      · intro h
        split at h
        next hxml =>
          obtain ⟨c, hc, rfl⟩ := Option.map_eq_some_iff.mp h
          obtain ⟨hbad, before, after, hchars, hbefore⟩ := List.find?_eq_some_iff_append.mp hc
          exact .character hxml hvalid hchars (by simpa using hbefore) (by simpa using hbad)
        next => cases h
      · rintro (hvalid' | ⟨rfl, -, hchars, hbefore, hbad⟩)
        · cases hvalid.symm.trans hvalid'
        · rw [if_pos rfl, Option.map_eq_some_iff]
          refine ⟨_, List.find?_eq_some_iff_append.mpr ⟨by simpa using hbad, _, _, hchars, ?_⟩, rfl⟩
          simpa using hbefore

theorem objection?_eq_none_iff_carries (hf : f ≠ .proto) :
    objection? (some f) b = none ↔ f.Carries b := by
  have hformat : ¬ some f = some .proto := by simpa using hf
  rw [objection?, if_neg hformat, Carries]
  cases Utf8.isValid b <;> simp

theorem Objects.not_carries (h : f.Objects b o) : ¬ f.Carries b := by
  rintro ⟨hvalid, hxml⟩
  cases h with
  | notUtf8 hinvalid => cases hinvalid.symm.trans hvalid
  | character hformat _ hchars _ hbad =>
      refine Bool.eq_false_iff.mp hbad (hxml hformat _ ?_)
      rw [hchars]
      exact List.mem_append_right _ List.mem_cons_self

end Format

namespace Tree

def objection? (f : Option Format) : Tree → Option (Bytes × Bytes × Objection)
  | absent => none
  | node h _ => (Format.objection? f h.payload.str).map fun o =>
      (Bytes.ofString h.kind.name, h.payload.str, o)

variable {f : Format} {h : Head} {cs : List Tree} {kind text : Bytes} {o : Objection}

theorem objection?_eq_some_iff (hf : f ≠ .proto) :
    objection? (some f) (node h cs) = some (kind, text, o) ↔
      f.Objects h.payload.str o ∧ Bytes.ofString h.kind.name = kind ∧ h.payload.str = text := by
  simp only [objection?, Option.map_eq_some_iff, Prod.mk.injEq, Format.objection?_eq_some_iff hf]
  constructor
  · rintro ⟨o, ho, hkind, htext, rfl⟩
    exact ⟨ho, hkind, htext⟩
  · rintro ⟨ho, hkind, htext⟩
    exact ⟨o, ho, hkind, htext, rfl⟩

theorem objection?_eq_none_iff (hf : f ≠ .proto) :
    objection? (some f) (node h cs) = none ↔ f.Carries h.payload.str := by
  rw [objection?, Option.map_eq_none_iff, Format.objection?_eq_none_iff_carries hf]

end Tree

namespace Record

variable {f : Option Format} {t : Tree}

theorem objectionAll?_eq_findSome? (f : Option Format) (rs : List Record) :
    objectionAll? f rs = rs.findSome? (objection? f) := by
  induction rs with
  | nil => rfl
  | cons r rs ih =>
      rw [objectionAll?, List.findSome?_cons, ih]
      cases objection? f r <;> rfl

/-- The record of a tree is searched in the order of the nodes of the tree. -/
theorem objection?_ofTree (f : Option Format) (t : Tree) :
    (ofTree t).objection? f = t.nodes.findSome? (Tree.objection? f) := by
  induction t with
  | absent => simp [ofTree, objection?, Tree.nodes, Tree.inspect, Tree.inspectAll]
  | node h cs ih =>
      -- by induction on the child list, with `ih` for each of the children
      have hchildren : (cs.map ofTree).findSome? (objection? f) =
          (cs.flatMap Tree.nodes).findSome? (Tree.objection? f) := by
        induction cs with
        | nil => rfl
        | cons c cs ihcs =>
            obtain ⟨hc, hcs⟩ := List.forall_mem_cons.mp ih
            rw [List.map_cons, List.findSome?_cons, List.flatMap_cons, List.findSome?_append, hc,
              ihcs hcs]
            cases c.nodes.findSome? (Tree.objection? f) <;> rfl
      rw [ofTree_node, objection?, Tree.nodes_node, List.findSome?_cons, Tree.objection?,
        objectionAll?_eq_findSome?, hchildren]
      cases Format.objection? f h.payload.str <;> rfl

/-- The search finds the first text that the format does not carry. -/
theorem objection?_ofTree_eq_some_iff {f : Format} (hf : f ≠ .proto) {t : Tree} {kind text : Bytes}
    {o : Objection} :
    (ofTree t).objection? (some f) = some (kind, text, o) ↔
      ∃ before h cs after, t.nodes = before ++ .node h cs :: after ∧
        (∀ k ds, .node k ds ∈ before → f.Carries k.payload.str) ∧ f.Objects h.payload.str o ∧
          Bytes.ofString h.kind.name = kind ∧ h.payload.str = text := by
  rw [objection?_ofTree, List.findSome?_eq_some_iff]
  constructor
  · rintro ⟨before, u, after, hnodes, hfound, hbefore⟩
    cases u with
    | absent => cases hfound
    | node h cs =>
        refine ⟨before, h, cs, after, hnodes, ?_, (Tree.objection?_eq_some_iff hf).mp hfound⟩
        exact fun k ds hk => (Tree.objection?_eq_none_iff hf).mp (hbefore _ hk)
  · rintro ⟨before, h, cs, after, hnodes, hbefore, hfound⟩
    refine ⟨before, .node h cs, after, hnodes, (Tree.objection?_eq_some_iff hf).mpr hfound, ?_⟩
    intro u hu
    cases u with
    | absent => rfl
    | node k ds => exact (Tree.objection?_eq_none_iff hf).mpr (hbefore k ds hu)

end Record

theorem Head.isFinite_float_eq_false_iff {h : Head} :
    h.payload.float.isFinite = false ↔
      ∃ x, h = .float x ∧ (x.isNaN = true ∨ x.isInfinite = true) := by
  constructor
  · intro hfinite
    cases h with
    | float x =>
        refine ⟨x, rfl, ?_⟩
        rcases x.isNaN_or_isInfinite_or_isFinite with hnan | hinfinite | hx
        · exact .inl hnan
        · exact .inr hinfinite
        · cases hfinite.symm.trans hx
    | _ => cases hfinite
  · rintro ⟨x, rfl, hnan | hinfinite⟩
    · exact Binary64.isFinite_of_isNaN hnan
    · exact Binary64.isFinite_of_isInfinite hinfinite

namespace Codec

/-- Why a format of records refuses a tree: for the first text in pre-order that it does not carry,
or, all texts being carried, for a number that JSON has no form for. -/
inductive Refuses (f : Format) (t : Tree) : CodecError → Prop
  | text {before after : List Tree} {h : Head} {cs : List Tree} {o : Objection} :
      t.nodes = before ++ .node h cs :: after →
      (∀ k ds, .node k ds ∈ before → f.Carries k.payload.str) → f.Objects h.payload.str o →
      Refuses f t (.text f.name (Bytes.ofString h.kind.name) h.payload.str o)
  | number {x : Binary64} {cs : List Tree} : f = .json →
      (∀ h cs, .node h cs ∈ t.nodes → f.Carries h.payload.str) → .node (.float x) cs ∈ t.nodes →
      x.isNaN = true ∨ x.isInfinite = true → Refuses f t .encoding

variable {f : Format} {t : Tree} {limit indent : Int} {compress : Bool} {e : CodecError}

theorem Refuses.isEncoding (h : Refuses f t e) : e.IsEncoding := by
  cases h <;> exact trivial

theorem writeRecord_eq_error_iff (hf : f ≠ .proto) (hcomplete : t.Complete)
    (hdepth : t.depth ≤ 5000) :
    writeRecord indent (Record.ofTree t) f = .error e ↔
      e = .encoding ∧ f = .json ∧
        ∃ x cs, .node (.float x) cs ∈ t.nodes ∧ (x.isNaN = true ∨ x.isInfinite = true) := by
  cases f with
  | proto => cases hf rfl
  | yaml | toml | xml | cbor => simp [writeRecord]
  | json =>
      -- the tree is shallow enough for lines, so the numbers alone decide
      have hnesting := (nesting_le_iff hcomplete).mpr hdepth
      have hnone : writeJson? indent (Record.ofTree t) = none ↔
          ∃ x cs, .node (.float x) cs ∈ t.nodes ∧ (x.isNaN = true ∨ x.isInfinite = true) := by
        rw [Option.eq_none_iff_forall_ne_some]
        simp only [ne_eq, writeJson?_ofTree_eq_some_iff, hnesting, implies_true, true_and, not_and]
        constructor
        · intro h
          have hsome : ¬ t.EachHead fun h => h.payload.float.isFinite = true :=
            fun hfinite => h _ hfinite rfl
          simp only [Tree.EachHead, Tree.EachNode, not_forall, Bool.not_eq_true,
            Head.isFinite_float_eq_false_iff] at hsome
          obtain ⟨_, cs, hmem, x, rfl, hx⟩ := hsome
          exact ⟨x, cs, hmem, hx⟩
        · rintro ⟨x, cs, hmem, hx⟩ b hfinite
          have hbad := Head.isFinite_float_eq_false_iff.mpr ⟨x, rfl, hx⟩
          cases hbad.symm.trans (hfinite _ _ hmem)
      rw [← hnone, writeRecord]
      cases writeJson? indent (Record.ofTree t) with
      | none => simp [encoded, eq_comm]
      | some b => simp [encoded]

theorem checkText_eq_error_iff (hf : f ≠ .proto) :
    checkText (.ok f) (Record.ofTree t) = .error e ↔
      ∃ before h cs after o, t.nodes = before ++ .node h cs :: after ∧
        (∀ k ds, .node k ds ∈ before → f.Carries k.payload.str) ∧ f.Objects h.payload.str o ∧
          e = .text f.name (Bytes.ofString h.kind.name) h.payload.str o := by
  have hsearch : checkText (.ok f) (Record.ofTree t) = .error e ↔
      ∃ kind text o, (Record.ofTree t).objection? (some f) = some (kind, text, o) ∧
        e = .text f.name kind text o := by
    rw [checkText, Except.toOption]
    cases (Record.ofTree t).objection? (some f) with
    | none => simp
    | some found => simp [formatName, Prod.ext_iff, eq_comm]
  rw [hsearch]
  constructor
  · rintro ⟨_, _, o, hfound, rfl⟩
    obtain ⟨before, h, cs, after, hnodes, hbefore, ho, rfl, rfl⟩ :=
      (Record.objection?_ofTree_eq_some_iff hf).mp hfound
    exact ⟨before, h, cs, after, o, hnodes, hbefore, ho, rfl⟩
  · rintro ⟨before, h, cs, after, o, hnodes, hbefore, ho, rfl⟩
    exact ⟨_, _, o, (Record.objection?_ofTree_eq_some_iff hf).mpr
      ⟨before, h, cs, after, hnodes, hbefore, ho, rfl, rfl⟩, rfl⟩

theorem checkText_eq_ok_iff (hf : f ≠ .proto) :
    checkText (.ok f) (Record.ofTree t) = .ok () ↔
      ∀ h cs, .node h cs ∈ t.nodes → f.Carries h.payload.str := by
  have hsearch : checkText (.ok f) (Record.ofTree t) = .ok () ↔
      (Record.ofTree t).objection? (some f) = none := by
    rw [checkText, Except.toOption]
    cases (Record.ofTree t).objection? (some f) <;> simp
  rw [hsearch, Record.objection?_ofTree_eq_none_iff]
  exact forall₃_congr fun h _ _ => Format.objection?_eq_none_iff_carries hf

theorem write_eq_error_iff_writeValid {o : WriteOptions} (ht : t.validate limit = .ok ()) :
    write limit o t = .error e ↔ writeValid o t = .error e := by
  rw [write, writeWith, ht]
  -- the compression that may follow cannot fail
  cases writeValid o t with
  | error d => rfl
  | ok b => constructor <;> rintro ⟨⟩

/-- Writing a valid tree that is not too deep fails with what its format has against it. -/
theorem write_eq_error_iff (hf : f ≠ .proto) (ht : t.validate limit = .ok ())
    (hdepth : t.depth ≤ 5000) :
    write limit { format := .ok f, indent, compress } t = .error e ↔ Refuses f t e := by
  have hformat : ¬ (Except.ok f : Except FormatError Format).toOption = some .proto := by
    simpa [Except.toOption] using hf
  have hchecked : writeValid { format := .ok f, indent, compress } t =
      (checkText (.ok f) (Record.ofTree t) >>= fun _ =>
        writeRecord indent (Record.ofTree t) f) := by
    rw [writeValid, if_neg hformat]
    rfl
  rw [write_eq_error_iff_writeValid ht, hchecked, check_bind_eq_error_iff,
    checkText_eq_error_iff hf, checkText_eq_ok_iff hf,
    writeRecord_eq_error_iff hf (Tree.complete_of_validateAt ht) hdepth]
  constructor
  · rintro (⟨_, _, _, _, _, hnodes, hbefore, ho, rfl⟩ | ⟨hcarried, rfl, hjson, _, _, hmem, hx⟩)
    · exact .text hnodes hbefore ho
    · exact .number hjson hcarried hmem hx
  · rintro (⟨hnodes, hbefore, ho⟩ | ⟨hjson, hcarried, hmem, hx⟩)
    · exact .inl ⟨_, _, _, _, _, hnodes, hbefore, ho, rfl⟩
    · exact .inr ⟨hcarried, rfl, hjson, _, _, hmem, hx⟩

theorem exists_refuses_iff (hf : f ≠ .proto) :
    (∃ e, Refuses f t e) ↔ (∃ h cs, .node h cs ∈ t.nodes ∧ ¬ f.Carries h.payload.str) ∨
      f = .json ∧ ∃ x cs, .node (.float x) cs ∈ t.nodes ∧
        (x.isNaN = true ∨ x.isInfinite = true) := by
  constructor
  · rintro ⟨e, h⟩
    cases h with
    | @text before after h cs o hnodes _ ho =>
        refine .inl ⟨h, cs, ?_, ho.not_carries⟩
        rw [hnodes]
        exact List.mem_append_right before List.mem_cons_self
    | number hjson _ hmem hx => exact .inr ⟨hjson, _, _, hmem, hx⟩
  · intro hbad
    -- the search tells which of the texts comes first, if there is one
    cases hcheck : checkText (.ok f) (Record.ofTree t) with
    | error e =>
        obtain ⟨_, _, _, _, _, hnodes, hbefore, ho, -⟩ := (checkText_eq_error_iff hf).mp hcheck
        exact ⟨_, .text hnodes hbefore ho⟩
    | ok u =>
        have hcarried := (checkText_eq_ok_iff hf).mp hcheck
        obtain ⟨h, cs, hmem, hnot⟩ | ⟨hjson, x, cs, hmem, hx⟩ := hbad
        · exact absurd (hcarried h cs hmem) hnot
        · exact ⟨_, .number hjson hcarried hmem hx⟩

theorem exists_not_carries_iff :
    (∃ h cs, .node h cs ∈ t.nodes ∧ ¬ f.Carries h.payload.str) ↔
      (∃ h cs, .node h cs ∈ t.nodes ∧ Utf8.isValid h.payload.str = false) ∨
        f = .xml ∧ ∃ h cs, .node h cs ∈ t.nodes ∧
          ∃ c ∈ Utf8.chars h.payload.str, isXmlChar c = false := by
  simp only [Format.Carries, not_and_or, Bool.not_eq_true, not_forall, exists_prop, and_or_left,
    exists_or]
  refine or_congr_right ?_
  constructor
  · rintro ⟨h, cs, hmem, hxml, c, hc, hbad⟩
    exact ⟨hxml, h, cs, hmem, c, hc, hbad⟩
  · rintro ⟨hxml, h, cs, hmem, c, hc, hbad⟩
    exact ⟨h, cs, hmem, hxml, c, hc, hbad⟩

/-- Writing a valid tree of at most five thousand levels fails if a text is not UTF-8, or has a
character that XML does not carry, or JSON meets a number that is not finite, and never else. It
fails with an error of encoding, which names the first text in pre-order that is not carried and the
kind of its node. Binary fields are written of every valid tree. -/
theorem write_refuses (limit indent : Int) (compress : Bool) {t : Tree}
    (ht : t.validate limit = .ok ()) :
    (t.depth ≤ 5000 → ∀ f : Format, f ≠ .proto →
      ((∃ e, write limit { format := .ok f, indent, compress } t = .error e) ↔
        (∃ h cs, .node h cs ∈ t.nodes ∧ Utf8.isValid h.payload.str = false) ∨
        (f = .xml ∧ ∃ h cs, .node h cs ∈ t.nodes ∧
          ∃ c ∈ Utf8.chars h.payload.str, isXmlChar c = false) ∨
        (f = .json ∧ ∃ x cs, .node (.float x) cs ∈ t.nodes ∧
          (x.isNaN = true ∨ x.isInfinite = true))) ∧
      ∀ e, write limit { format := .ok f, indent, compress } t = .error e ↔
        Refuses f t e ∧ e.IsEncoding) ∧
    ∃ b, write limit { format := .ok .proto, indent, compress } t = .ok b := by
  refine ⟨?_, Tree.write_proto_succeeds indent compress ht⟩
  intro hdepth f hf
  have herror : ∀ e, write limit { format := .ok f, indent, compress } t = .error e ↔
      Refuses f t e := fun e => write_eq_error_iff hf ht hdepth
  constructor
  · rw [exists_congr herror, exists_refuses_iff hf, exists_not_carries_iff, or_assoc]
  · intro e
    rw [herror]
    exact (and_iff_left_of_imp Refuses.isEncoding).symm

/-- A text with a zero byte before one that is not UTF-8: XML names the first, CBOR the second. -/
theorem write_refuses_texts :
    let zero := Tree.node (.string [0]) []
    let stray := Tree.node (.string [0xFF]) []
    let t := Tree.node .invocation [zero, stray]
    t.validate 1 = .ok () ∧ t.depth ≤ 5000 ∧
      write 1 { format := .ok .xml } t =
        .error (.text "xml" (Bytes.ofString "StringLiteral") [0] (.character (Char.ofNat 0))) ∧
      write 1 { format := .ok .cbor } t =
        .error (.text "cbor" (Bytes.ofString "StringLiteral") [0xFF] .notUtf8) ∧
      ∃ b, write 1 { format := .ok .proto } t = .ok b := by
  intro zero stray t
  have ht : t.validate 1 = .ok () := rfl
  have hdepth : t.depth ≤ 5000 := by
    rw [Tree.depth_eq_levels]
    decide
  have hnodes : t.nodes = [t, zero, stray] := by simp [t, zero, stray, Tree.nodes_node]
  obtain ⟨hrecords, hproto⟩ := write_refuses 1 0 false ht
  have hxml : Refuses .xml t
      (.text "xml" (Bytes.ofString "StringLiteral") [0] (.character (Char.ofNat 0))) := by
    refine .text (show t.nodes = [t] ++ zero :: [stray] from hnodes) ?_ ?_
    · intro k ds hk
      obtain ⟨rfl, -⟩ := Tree.node.inj (List.mem_singleton.mp hk)
      exact ⟨rfl, fun _ => nofun⟩
    · exact .character rfl rfl (show Utf8.chars [0] = [] ++ Char.ofNat 0 :: [] from rfl) nofun rfl
  have hcbor : Refuses .cbor t (.text "cbor" (Bytes.ofString "StringLiteral") [0xFF] .notUtf8) := by
    refine .text (show t.nodes = [t, zero] ++ stray :: [] from hnodes) ?_ (.notUtf8 rfl)
    intro k ds hk
    rcases List.mem_pair.mp hk with hk | hk <;> obtain ⟨rfl, -⟩ := Tree.node.inj hk <;>
      exact ⟨rfl, nofun⟩
  exact ⟨ht, hdepth, ((hrecords hdepth .xml nofun).2 _).mpr ⟨hxml, trivial⟩,
    ((hrecords hdepth .cbor nofun).2 _).mpr ⟨hcbor, trivial⟩, hproto⟩

end Codec

end Arbor
