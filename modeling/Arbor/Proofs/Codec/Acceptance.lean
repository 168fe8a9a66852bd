import Arbor.Diff.Patch
import Arbor.Proofs.Tree.Verdict

/-! What either reader returns is valid under the limit that the reader was given. -/
namespace Arbor

namespace Tree

variable {limit : Int} {depth : Nat} {t : Tree}

theorem ofKind_eq_ok_iff {k : Kind} {p : Payload} {cs : List Tree} :
    ofKind k p cs = .ok t ↔ check k cs = .ok () ∧ t = .node (Head.ofPayload k p) cs := by
  rw [ofKind, check_bind_eq_ok_iff]
  constructor
  · rintro ⟨hcheck, htree⟩
    exact ⟨hcheck, (Except.ok.inj htree).symm⟩
  · rintro ⟨hcheck, rfl⟩
    exact ⟨hcheck, rfl⟩

theorem validateAt_of_ofKind {k : Kind} {p : Payload} {cs : List Tree}
    (hdepth : checkDepth limit depth = .ok ())
    (hcs : ∀ c ∈ cs, validateAt limit (depth + 1) c = .ok ()) (h : ofKind k p cs = .ok t) :
    validateAt limit depth t = .ok () := by
  obtain ⟨hcheck, rfl⟩ := ofKind_eq_ok_iff.mp h
  rw [validateAt_node_iff, Head.kind_ofPayload]
  exact ⟨checkDepth_eq_ok_iff.mp hdepth, hcheck, hcs⟩

end Tree

namespace Record

variable {limit : Int} {depth : Nat}

theorem induction {motive : Record → Prop} (null : motive .null)
    (node : ∀ k p rs, (∀ r ∈ rs, motive r) → motive (.node k p rs)) (r : Record) : motive r := by
  refine @Record.rec motive (fun rs => ∀ r ∈ rs, motive r) null node ?_ ?_ r
  · intro r hr
    cases hr
  · intro r rs hr hrs e he
    rcases List.mem_cons.mp he with rfl | he
    · exact hr
    · exact hrs e he

theorem validateAt_of_toTreesAt {rs : List Record} {ts : List Tree}
    (hrs : ∀ r ∈ rs, ∀ t, r.toTreeAt limit depth = .ok t → t.validateAt limit depth = .ok ())
    (h : toTreesAt limit depth rs = .ok ts) : ∀ t ∈ ts, t.validateAt limit depth = .ok () := by
  induction rs generalizing ts with
  | nil =>
      cases h
      intro t ht
      cases ht
  | cons r rs ih =>
      rw [toTreesAt] at h
      obtain ⟨t, ht, h⟩ := bind_eq_ok_iff.mp h
      obtain ⟨us, hus, h⟩ := bind_eq_ok_iff.mp h
      cases h
      rw [List.forall_mem_cons]
      exact ⟨hrs r List.mem_cons_self t ht, ih (fun e he => hrs e (List.mem_cons_of_mem r he)) hus⟩

/-- The tree of a record is valid, whatever stands in the record. -/
theorem validateAt_of_toTreeAt {r : Record} {t : Tree} (h : r.toTreeAt limit depth = .ok t) :
    t.validateAt limit depth = .ok () := by
  induction r using Record.induction generalizing depth t with
  | null => simp [toTreeAt] at h
  | node kind p rs ih =>
      rw [toTreeAt, check_bind_eq_ok_iff] at h
      obtain ⟨hdepth, h⟩ := h
      split at h
      · cases h
      · obtain ⟨ts, hts, h⟩ := bind_eq_ok_iff.mp h
        have hvalid := validateAt_of_toTreesAt (fun r hr t ht => ih r hr ht) hts
        exact Tree.validateAt_of_ofKind hdepth hvalid h

end Record

namespace Codec

variable {limit : Int} {depth : Nat}

/-- The children read so far are valid one level below the message. -/
def Draft.Valid (limit : Int) (depth : Nat) (d : Draft) : Prop :=
  ∀ c ∈ d.children, c.validateAt limit (depth + 1) = .ok ()

theorem Draft.Valid.tree {d : Draft} {t : Tree} (hd : d.Valid limit depth)
    (hdepth : Tree.checkDepth limit depth = .ok ()) (h : d.tree = .ok t) :
    t.validateAt limit depth = .ok () := by
  rw [Draft.tree, mapError_eq_ok_iff, Tree.build] at h
  split at h
  · refine Tree.validateAt_of_ofKind hdepth ?_ h
    intro c hc
    exact hd c (List.mem_reverse.mp hc)
  · cases h

theorem Draft.Valid.addChild {d : Draft} {c : Tree} (hd : d.Valid limit depth)
    (hc : c.validateAt limit (depth + 1) = .ok ()) :
    Draft.Valid limit depth { d with children := c :: d.children } := by
  intro e he
  rcases List.mem_cons.mp he with rfl | he
  · exact hc
  · exact hd e he

theorem readScalar_children {d e : Draft} {f : Field} {b rest : Bytes}
    (h : readScalar d f b = .ok (e, rest)) : e.children = d.children := by
  cases f with
  | kind =>
      rw [readScalar] at h
      obtain ⟨⟨n, b'⟩, -, h⟩ := bind_eq_ok_iff.mp h
      dsimp only at h
      split at h
      · cases h
        rfl
      · cases h
  | children =>
      cases h
      rfl
  | int | float | bool | str =>
      rw [readScalar] at h
      obtain ⟨⟨n, b'⟩, -, h⟩ := bind_eq_ok_iff.mp h
      cases h
      rfl

/-- The step: if the rest of the fuel reads valid messages and drafts, so does one field more. -/
theorem Draft.Valid.readFields_step {fuel : Nat}
    (hmessage : ∀ {depth b t}, readMessage limit fuel depth b = .ok t →
      t.validateAt limit depth = .ok ())
    (hfields : ∀ {depth d b e}, d.Valid limit depth → readFields limit fuel depth d b = .ok e →
      e.Valid limit depth)
    {d e : Draft} {x : UInt8} {b : Bytes} (hd : d.Valid limit depth)
    (h : readFields limit (fuel + 1) depth d (x :: b) = .ok e) : e.Valid limit depth := by
  rw [readFields] at h
  · obtain ⟨⟨number, type, rest⟩, -, h⟩ := bind_eq_ok_iff.mp h
    dsimp only at h
    split at h
    · obtain ⟨rest, -, h⟩ := bind_eq_ok_iff.mp h
      exact hfields hd h
    · split at h
      · cases h
      · split at h
        · obtain ⟨⟨message, rest⟩, -, h⟩ := bind_eq_ok_iff.mp h
          obtain ⟨child, hchild, h⟩ := bind_eq_ok_iff.mp h
          exact hfields (hd.addChild (hmessage hchild)) h
        · obtain ⟨⟨d', rest⟩, hscalar, h⟩ := bind_eq_ok_iff.mp h
          refine hfields ?_ h
          intro c hc
          rw [readScalar_children hscalar] at hc
          exact hd c hc
  · intro hnil
    cases hnil

/-- Messages are read as valid trees, and fields into valid drafts. -/
theorem readMessage_readFields_valid (limit : Int) (fuel : Nat) :
    (∀ {depth b t}, readMessage limit fuel depth b = .ok t → t.validateAt limit depth = .ok ()) ∧
    (∀ {depth d b e}, Draft.Valid limit depth d → readFields limit fuel depth d b = .ok e →
      e.Valid limit depth) := by
  induction fuel with
  | zero =>
      constructor
      · intro depth b t h
        cases h
      · intro depth d b e hd h
        cases b with
        | nil =>
            rw [readFields] at h
            cases h
            exact hd
        | cons x b => cases h
  | succ fuel ih =>
      obtain ⟨hmessage, hfields⟩ := ih
      constructor
      · intro depth b t h
        rw [readMessage, check_bind_eq_ok_iff, mapError_eq_ok_iff] at h
        obtain ⟨hdepth, h⟩ := h
        obtain ⟨d, hd, h⟩ := bind_eq_ok_iff.mp h
        have hblank : Draft.Valid limit depth {} := by
          intro c hc
          cases hc
        exact (hfields hblank hd).tree hdepth h
      · intro depth d b e hd h
        cases b with
        | nil =>
            rw [readFields] at h
            cases h
            exact hd
        | cons x b => exact hd.readFields_step hmessage hfields h

theorem validate_of_readWith {z : Zstd.Coder} {o : ReadOptions} {b : Bytes} {t : Tree}
    (h : readWith z limit o b = .ok t) : t.validate limit = .ok () := by
  obtain ⟨b, -, h⟩ := bind_eq_ok_iff.mp h
  rw [readPlain] at h
  split at h
  · exact (readMessage_readFields_valid limit _).1 h
  · obtain ⟨f, -, h⟩ := bind_eq_ok_iff.mp h
    obtain ⟨r, -, h⟩ := bind_eq_ok_iff.mp h
    exact Record.validateAt_of_toTreeAt (mapError_eq_ok_iff.mp h)

end Codec

namespace Tree

variable {limit : Int} {t : Tree}

theorem validate_of_applyPatch {u : Tree} {text : Bytes} (h : u.applyPatch limit text = .ok t) :
    t.validate limit = .ok () := by
  rw [applyPatch] at h
  split at h
  · cases h
  · obtain ⟨form, -, h⟩ := bind_eq_ok_iff.mp h
    obtain ⟨r, -, h⟩ := bind_eq_ok_iff.mp (mapError_eq_ok_iff.mp h)
    exact Record.validateAt_of_toTreeAt (mapError_eq_ok_iff.mp h)

/-- A tree that came in under a limit. -/
inductive Accepted (limit : Int) (t : Tree) : Prop
  | read (o : Codec.ReadOptions) (b : Bytes) : Codec.read limit o b = .ok t → Accepted limit t
  | patched (u : Tree) (patch : Bytes) : u.applyPatch limit patch = .ok t → Accepted limit t
  /-- Made of any record that a format may yield, with nulls among the children. -/
  | record (r : Record) : r.toTree limit = .ok t → Accepted limit t

theorem Accepted.validate (h : t.Accepted limit) : t.validate limit = .ok () := by
  cases h with
  | read o b h => exact Codec.validate_of_readWith h
  | patched u patch h => exact validate_of_applyPatch h
  | record r h => exact Record.validateAt_of_toTreeAt h

/-- Everything that is accepted is well formed: arities and families are kept, nothing is absent,
and the nesting is within the limit. So it is valid, has a hash and a digest, compares as equal with
itself and can be written in binary fields. -/
theorem accepted_wellFormed {limit : Int} {t : Tree} (h : t.Accepted limit) :
    t.validate limit = .ok () ∧
      t.Typed ∧ t.Complete ∧ (t.depth : Int) ≤ limit + 1 ∧
      (∀ hasher, ∃ v, t.hash hasher limit = .ok v) ∧
      (∃ d, t.digest limit = .ok d) ∧
      t.compare limit t = .ok 0 ∧
      ∀ indent compress, ∃ b,
        Codec.write limit { format := .ok .proto, indent, compress } t = .ok b := by
  have hvalid := h.validate
  obtain ⟨htyped, hcomplete, hdepth⟩ := validate_eq_ok_iff.mp hvalid
  have hverdict : verdict (t.validate limit) = .ok () := by rw [hvalid]; rfl
  refine ⟨hvalid, htyped, hcomplete, hdepth, ?_, ?_, compare_of_same hvalid (.refl t), ?_⟩
  · intro hasher
    rw [← verdict_eq_ok_iff, hash, verdict_map]
    exact (verdict_markAt _ _ t).trans hverdict
  · rw [← verdict_eq_ok_iff, digest, digestWith, verdict_map]
    exact (verdict_markAt _ _ t).trans hverdict
  · intro indent compress
    have hwrite := write_proto_eq limit indent compress t
    rw [hvalid] at hwrite
    exact ⟨_, hwrite⟩

/-- A message with its child before its kind and a field that means nothing between them. -/
theorem accepted_wellFormed_reordered :
    let t := node .expression [node .null []]
    t.Accepted 1 ∧ t.validate 1 = .ok () ∧ (t.depth : Int) ≤ 1 + 1 ∧ t.compare 1 t = .ok 0 := by
  intro t
  have hread : Codec.read 1 { format := .ok .proto }
      [0x32, 0x02, 0x08, 0x05, 0x38, 0x2A, 0x08, 0x0B] = .ok t := by rfl
  have haccepted : t.Accepted 1 := .read _ _ hread
  obtain ⟨hvalid, -, -, hdepth, -, -, hcompare, -⟩ := accepted_wellFormed haccepted
  exact ⟨haccepted, hvalid, hdepth, hcompare⟩

end Tree

end Arbor
