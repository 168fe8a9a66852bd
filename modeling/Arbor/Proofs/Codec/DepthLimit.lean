import Arbor.Proofs.Codec.ProtoDepth

/-! Validation and both readers draw the same line between depths. -/
namespace Arbor

variable {limit wide : Int} {depth : Nat} {t : Tree}

namespace Tree

theorem check_of_typed {h : Head} {cs : List Tree} (ht : Typed (.node h cs))
    (hcomplete : Complete (.node h cs)) : check h.kind cs = .ok () := by
  cases ht with
  | node hcount hfits _ =>
      refine check_eq_ok_iff_fits.mpr ⟨hcount, ?_, hfits⟩
      exact fun hmem => not_complete_absent (hcomplete.children _ hmem)

/-- A typed tree in which nothing is absent is refused for its depth only. -/
theorem tooDeep_of_validateAt (ht : t.Typed) (hcomplete : t.Complete) {f : Fault}
    (h : t.validateAt limit depth = .error f) : f = .tooDeep limit := by
  induction ht generalizing depth with
  | absent => cases hcomplete
  | @node l cs hcount hfits hcs ih =>
      have hcheck := check_of_typed (.node hcount hfits hcs) hcomplete
      rw [validateAt, check_bind_eq_error_iff, check_bind_eq_error_iff, hcheck] at h
      obtain hdepth | ⟨-, herror | ⟨-, hchildren⟩⟩ := h
      · unfold checkDepth at hdepth
        split at hdepth
        · cases hdepth
          rfl
        · cases hdepth
      · cases herror
      · obtain ⟨c, hc, hfault⟩ := validateAll_error hchildren
        exact ih c hc (hcomplete.children c hc) hfault

/-- A tree that is valid under some limit is valid under all that its levels fit, and too deep for
the others. -/
theorem validate_eq (ht : t.validate wide = .ok ()) :
    t.validate limit =
      if (t.depth : Int) ≤ limit + 1 then .ok () else .error (.tooDeep limit) := by
  obtain ⟨htyped, hcomplete, -⟩ := validate_eq_ok_iff.mp ht
  have hiff : t.validate limit = .ok () ↔ (t.depth : Int) ≤ limit + 1 :=
    validate_eq_ok_iff.trans (by simp only [htyped, hcomplete, true_and])
  split
  next hdepth => exact hiff.mpr hdepth
  next hdepth =>
    cases hvalid : t.validate limit with
    | ok u => exact absurd (hiff.mp hvalid) hdepth
    | error f => rw [tooDeep_of_validateAt htyped hcomplete hvalid]

end Tree

namespace Record

theorem toTreesAt_ofTree_eq {cs : List Tree}
    (hcs : ∀ c ∈ cs,
      (ofTree c).toTreeAt limit depth = (c.validateAt limit depth).map fun _ => c) :
    toTreesAt limit depth (cs.map ofTree) = (Tree.validateAll limit depth cs).map fun _ => cs := by
  induction cs with
  | nil => rfl
  | cons c cs ih =>
      rw [List.map_cons, toTreesAt, hcs c List.mem_cons_self,
        ih fun d hd => hcs d (List.mem_cons_of_mem c hd), Tree.validateAll]
      cases c.validateAt limit depth with
      | error f => rfl
      | ok u => cases Tree.validateAll limit depth cs <;> rfl

/-- The record of a typed tree in which nothing is absent is converted as validation decides, though
it builds each node after its children and validation looks at the children last. -/
theorem toTreeAt_ofTree_eq (ht : t.Typed) (hcomplete : t.Complete) :
    (ofTree t).toTreeAt limit depth = (t.validateAt limit depth).map fun _ => t := by
  induction ht generalizing depth with
  | absent => cases hcomplete
  | @node h cs hcount hfits hcs ih =>
      have hcheck := Tree.check_of_typed (.node hcount hfits hcs) hcomplete
      have hbuild : Tree.ofKind h.kind h.payload cs = .ok (.node h cs) :=
        Tree.ofKind_eq_ok_iff.mpr ⟨hcheck, by rw [Head.ofPayload_payload]⟩
      have hchildren : toTreesAt limit (depth + 1) (cs.map ofTree) =
          (Tree.validateAll limit (depth + 1) cs).map fun _ => cs :=
        toTreesAt_ofTree_eq fun c hc => ih c hc (hcomplete.children c hc)
      rw [ofTree_node, toTreeAt, Tree.validateAt, hcheck]
      simp only [Kind.ofName?_name, hchildren]
      cases Tree.checkDepth limit depth with
      | error f => rfl
      | ok u =>
          cases Tree.validateAll limit (depth + 1) cs with
          | error f => rfl
          | ok u => exact hbuild

theorem toTree_ofTree_eq (ht : t.validate wide = .ok ()) :
    (ofTree t).toTree limit =
      if (t.depth : Int) ≤ limit + 1 then .ok t else .error (.tooDeep limit) := by
  obtain ⟨htyped, hcomplete, -⟩ := Tree.validate_eq_ok_iff.mp ht
  rw [toTree, toTreeAt_ofTree_eq htyped hcomplete]
  show (t.validate limit).map (fun _ => t) = _
  rw [Tree.validate_eq ht]
  split <;> rfl

end Record

namespace Codec

/-- A tree that was written under one limit is read from its bytes and converted from its record
under exactly those limits that its levels fit, negative ones included; under all others both are
refused because they are too deep and for nothing else. Validation decides in the same way, and
whatever the two accept under a limit is valid under it. -/
theorem readers_keep_limit {wide indent : Int} {t : Tree} (ht : t.validate wide = .ok ())
    (hsize : (writeProto t).length < 2 ^ 64) (limit : Int) :
    (∃ b, write wide { format := .ok .proto, indent } t = .ok b ∧
      read limit { format := .ok .proto } b = readProto limit b ∧
      readProto limit b = if (t.depth : Int) ≤ limit + 1 then .ok t.plusZero
        else .error (.fault (.tooDeep limit))) ∧
    ((Record.ofTree t).toTree limit =
      if (t.depth : Int) ≤ limit + 1 then .ok t else .error (.tooDeep limit)) ∧
    (t.validate limit =
      if (t.depth : Int) ≤ limit + 1 then .ok () else .error (.tooDeep limit)) ∧
    ∀ u : Tree, (∃ b, readProto limit b = .ok u) ∨ (∃ r : Record, r.toTree limit = .ok u) →
      u.validate limit = .ok () := by
  refine ⟨⟨writeProto t, write_proto ht, read_proto (Tree.complete_of_validateAt ht),
    readProto_writeProto_eq ht hsize⟩, Record.toTree_ofTree_eq ht, Tree.validate_eq ht, ?_⟩
  rintro u (⟨b, hread⟩ | ⟨r, hrecord⟩)
  · exact (readMessage_readFields_valid limit _).1 hread
  · exact Record.validateAt_of_toTreeAt hrecord

/-- A conditional whose third level stands in its last branch, below a limit of one, and a limit
that nothing fits. -/
theorem readers_keep_limit_conditional :
    let t := Tree.node .ifElse [.node (.boolean true) [], .node .block [],
      .node .block [.node .expression [.node (.float ⟨0x8000000000000000⟩) []]]]
    (t.validate 3 = .ok () ∧ (writeProto t).length < 2 ^ 64) ∧
      readProto 2 (writeProto t) = .error (.fault (.tooDeep 2)) ∧
      (Record.ofTree t).toTree 3 = .ok t ∧ (Record.ofTree t).toTree 2 = .error (.tooDeep 2) ∧
      t.validate (-1) = .error (.tooDeep (-1)) := by
  intro t
  have ht : t.validate 3 = .ok () := rfl
  have hsize : (writeProto t).length < 2 ^ 64 := by decide
  have hdepth : t.depth = 4 := by
    rw [Tree.depth_eq_levels]
    rfl
  obtain ⟨⟨b, hwrite, -, hread⟩, hrecord, -⟩ := @readers_keep_limit 3 0 t ht hsize 2
  obtain ⟨-, hrecord', -⟩ := @readers_keep_limit 3 0 t ht hsize 3
  obtain ⟨-, -, hvalidate, -⟩ := @readers_keep_limit 3 0 t ht hsize (-1)
  rw [hdepth] at hread hrecord hrecord' hvalidate
  obtain rfl : writeProto t = b := Except.ok.inj ((write_proto ht).symm.trans hwrite)
  exact ⟨⟨ht, hsize⟩, hread, hrecord', hrecord, hvalidate⟩

end Codec

end Arbor
