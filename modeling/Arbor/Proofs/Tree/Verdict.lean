import Arbor.Codec.Basic
import Arbor.Digest.Basic
import Arbor.Proofs.Tree.Order
import Arbor.Proofs.Tree.Shape
import Arbor.Tree.Hash
import Arbor.Tree.Rebuild

/-! Seven recursions over trees have one verdict on every tree. -/
namespace Arbor

/-- What a caller reacts to: success, or the class of the fault. -/
def verdict {α : Type} : Except Fault α → Except Fault.Class Unit
  | .ok _ => .ok ()
  | .error f => .error f.cls

section Verdict

variable {α β γ δ : Type}

theorem verdict_eq_ok_iff {x : Except Fault α} : verdict x = .ok () ↔ ∃ a, x = .ok a := by
  cases x with
  | error f => simp [verdict]
  | ok a => simp [verdict]

theorem verdict_eq_error_iff {x : Except Fault α} {c : Fault.Class} :
    verdict x = .error c ↔ ∃ f, x = .error f ∧ f.cls = c := by
  cases x with
  | error f => simp [verdict]
  | ok a => simp [verdict]

/-- Verdicts follow the order of the checks: the first part decides unless both first parts pass. -/
theorem verdict_bind {x : Except Fault α} {y : Except Fault β} {f : α → Except Fault γ}
    {g : β → Except Fault δ} (hfirst : verdict x = verdict y)
    (hrest : ∀ a b, x = .ok a → y = .ok b → verdict (f a) = verdict (g b)) :
    verdict (x >>= f) = verdict (y >>= g) := by
  cases x with
  | error e =>
      obtain ⟨e', rfl, hcls⟩ := verdict_eq_error_iff.mp hfirst.symm
      exact congrArg Except.error hcls.symm
  | ok a =>
      obtain ⟨b, rfl⟩ := verdict_eq_ok_iff.mp hfirst.symm
      exact hrest a b rfl rfl

theorem verdict_bind_pure (x : Except Fault α) (f : α → β) :
    verdict (x >>= fun a => pure (f a)) = verdict x := by
  cases x with
  | error e => rfl
  | ok a => rfl

theorem verdict_map (x : Except Fault α) (f : α → β) : verdict (x.map f) = verdict x := by
  cases x with
  | error e => rfl
  | ok a => rfl

end Verdict

namespace Walk

variable {α β : Type}

theorem result_bind (w : Walk α) (next : α → Walk β) :
    (w >>= next).result = w.result >>= fun a => (next a).result := by
  show (Walk.bind w next).result = _
  unfold Walk.bind
  split
  next a ha => rw [ha]; rfl
  next f hf => rw [hf]; rfl

theorem result_ofExcept (x : Except Fault α) : (ofExcept x).result = x := by
  cases x with
  | error f => rfl
  | ok a => rfl

end Walk

namespace Tree

variable {limit : Int} {depth : Nat}

section Marking

variable {α : Type} (combine : Head → List α → α) (operation : Operation)

theorem verdict_markAll {cs : List Tree}
    (hcs : ∀ c ∈ cs, verdict (markAt combine operation limit depth c) =
      verdict (validateAt limit depth c)) :
    verdict (markAll combine operation limit depth cs) = verdict (validateAll limit depth cs) := by
  induction cs with
  | nil => rfl
  | cons c cs ih =>
      rw [markAll, validateAll]
      apply verdict_bind (hcs c List.mem_cons_self)
      intro m _ _ _
      rw [verdict_bind_pure]
      exact ih fun e he => hcs e (List.mem_cons_of_mem c he)

theorem verdict_markAt (t : Tree) :
    verdict (markAt combine operation limit depth t) = verdict (validateAt limit depth t) := by
  induction t generalizing depth with
  | absent => rfl
  | node h cs ih =>
      rw [markAt, validateAt]
      apply verdict_bind rfl
      intro _ _ _ _
      apply verdict_bind rfl
      intro _ _ _ _
      rw [verdict_bind_pure]
      exact verdict_markAll combine operation fun c hc => ih c hc

end Marking

section Copying

variable {handler : Handler}

theorem rebuildAll_eq {cs : List Tree}
    (hcs : ∀ c ∈ cs, (rebuildAt handler limit depth c).result =
      (validateAt limit depth c).map fun _ => c) :
    (rebuildAll handler limit depth cs).result = (validateAll limit depth cs).map fun _ => cs := by
  induction cs with
  | nil => rfl
  | cons c cs ih =>
      rw [rebuildAll, Walk.result_bind, hcs c List.mem_cons_self, validateAll]
      cases hc : validateAt limit depth c with
      | error f => rfl
      | ok u =>
          show (rebuildAll handler limit depth cs >>= fun us => pure (c :: us)).result = _
          rw [Walk.result_bind, ih fun e he => hcs e (List.mem_cons_of_mem c he)]
          cases hcs : validateAll limit depth cs with
          | error f => rfl
          | ok u => rfl

/-- A walk whose handler returns its input copies what is valid and refuses the rest as
validation does. -/
theorem rebuildAt_eq (hhandler : ∀ h cs, handler (.node h cs) = .ok (.node h cs)) (t : Tree) :
    (rebuildAt handler limit depth t).result = (validateAt limit depth t).map fun _ => t := by
  induction t generalizing depth with
  | absent => rfl
  | node h cs ih =>
      rw [rebuildAt, validateAt]
      simp only [Walk.result_bind, Walk.result_ofExcept, rebuildAll_eq fun c hc => ih c hc]
      cases checkDepth limit depth with
      | error f => rfl
      | ok u =>
          cases hcheck : check h.kind cs with
          | error f => rfl
          | ok u =>
              cases validateAll limit (depth + 1) cs with
              | error f => rfl
              | ok u =>
                  have hfresh : ofKind h.kind h.payload cs = .ok (.node h cs) := by
                    rw [ofKind, hcheck, Head.ofPayload_payload]
                    rfl
                  show (ofKind h.kind h.payload cs >>= fun fresh => _) = _
                  rw [hfresh]
                  show ((Walk.hand handler (.node h cs)).result >>= fun result => _) = _
                  rw [Walk.hand, hhandler]
                  rfl

theorem walk_identity (limit : Int) (t : Tree) :
    (Visitor.identity.walk limit t).result = (t.validate limit).map fun _ => t := by
  have hhandler : ∀ h cs, Visitor.identity.apply (.node h cs) = .ok (.node h cs) := by
    intro h cs
    rfl
  exact rebuildAt_eq hhandler t

theorem handler?_identity (k : Kind) : HandlerTable.identity.handler? k = some (.ok ·) := by
  cases k <;> rfl

theorem visit_identity (limit : Int) (t : Tree) :
    ∃ d, Dispatcher.ofTable .identity = .ok d ∧
      (d.visit limit t).result = (t.validate limit).map fun _ => t := by
  refine ⟨⟨HandlerTable.identity.handler?⟩, rfl, ?_⟩
  refine rebuildAt_eq ?_ t
  intro h cs
  simp only [Dispatcher.apply, handler?_identity]

end Copying

section Comparing

theorem checkChildren_error_cls {k : Kind} {i : Nat} {cs : List Tree} {f : Fault}
    (h : checkChildren k i cs = .error f) : f.cls = .shapeMismatch := by
  induction cs generalizing i with
  | nil => simp [checkChildren] at h
  | cons c cs ih =>
      cases c with
      | absent =>
          simp only [checkChildren, Except.error.injEq] at h
          rw [← h]
          rfl
      | node l ds =>
          rw [checkChildren] at h
          split at h
          · exact ih h
          · simp only [Except.error.injEq] at h
            rw [← h]
            rfl

theorem check_error_cls {k : Kind} {cs : List Tree} {f : Fault}
    (hcount : k.admits cs.length = true) (h : check k cs = .error f) : f.cls = .shapeMismatch := by
  rw [check, if_pos hcount] at h
  exact checkChildren_error_cls h

/-- Conditionals are checked as others are, up to the words of the fault. -/
theorem verdict_checkBoth {k : Kind} {cs : List Tree} (hcount : k.admits cs.length = true) :
    verdict (checkBoth k cs cs) = verdict (check k cs) := by
  cases hcheck : check k cs with
  | ok u => rw [checkBoth_eq_ok hcheck hcheck]
  | error f =>
      have hcls := check_error_cls hcount hcheck
      rw [checkBoth]
      split
      · rw [hcheck]
        exact congrArg Except.error hcls.symm
      · rw [check, if_pos hcount] at hcheck
        rw [hcount, hcheck]
        rfl

theorem compareAt_self_eq_zero {t : Tree} {x : Int} (ht : validateAt limit depth t = .ok ())
    (hx : compareAt limit depth t t = .ok x) : x = 0 := by
  have hcomplete := complete_of_validateAt ht
  rw [gap_of_compareAt hx]
  exact (gap_eq_zero_iff hcomplete hcomplete).mpr (.refl t)

theorem verdict_compareAll_self {cs : List Tree}
    (hcs : ∀ c ∈ cs, verdict (compareAt limit depth c c) = verdict (validateAt limit depth c)) :
    verdict (compareAll limit depth cs cs) = verdict (validateAll limit depth cs) := by
  induction cs with
  | nil => rfl
  | cons c cs ih =>
      rw [compareAll, validateAll]
      apply verdict_bind (hcs c List.mem_cons_self)
      intro x _ hx hvalid
      -- equal children compare as zero, so the comparison goes on to the next one
      rw [compareAt_self_eq_zero hvalid hx]
      exact ih fun e he => hcs e (List.mem_cons_of_mem c he)

theorem comparePayload_self (h : Head) : h.comparePayload h = .eq := by
  rw [Head.comparePayload_eq rfl]
  exact Head.compareKeys_eq_iff.mpr rfl

theorem verdict_compareAt_self {t : Tree} (ht : t.Typed) :
    verdict (compareAt limit depth t t) = verdict (validateAt limit depth t) := by
  induction ht generalizing depth with
  | absent => rfl
  | @node h cs hcount hfits hcs ih =>
      rw [compareAt, validateAt]
      apply verdict_bind rfl
      intro _ _ _ _
      rw [if_neg (not_not_intro rfl), comparePayload_self]
      apply verdict_bind (verdict_checkBoth hcount)
      intro _ _ _ _
      rw [if_neg fun hcounts => hcounts.2 rfl]
      exact verdict_compareAll_self fun c hc => ih c hc

end Comparing

theorem writeWith_proto_eq (z : Zstd.Coder) (limit indent : Int) (compress : Bool) (t : Tree) :
    Codec.writeWith z limit { format := .ok .proto, indent, compress } t =
      ((t.validate limit).map fun _ =>
        if compress then z.compress (Codec.writeProto t) else Codec.writeProto t).mapError
          .fault := by
  rw [Codec.writeWith]
  cases t.validate limit with
  | error f => rfl
  | ok u => rfl

theorem write_proto_eq (limit indent : Int) (compress : Bool) (t : Tree) :
    Codec.write limit { format := .ok .proto, indent, compress } t =
      ((t.validate limit).map fun _ =>
        if compress then Zstd.compress (Codec.writeProto t) else Codec.writeProto t).mapError
          .fault :=
  writeWith_proto_eq Zstd.rawCoder limit indent compress t

theorem validateAll_error {cs : List Tree} {f : Fault}
    (h : validateAll limit depth cs = .error f) :
    ∃ c ∈ cs, validateAt limit depth c = .error f := by
  induction cs with
  | nil => cases h
  | cons c cs ih =>
      rw [validateAll] at h
      cases hc : validateAt limit depth c with
      | error g =>
          rw [hc] at h
          exact ⟨c, List.mem_cons_self, hc.trans h⟩
      | ok u =>
          rw [hc] at h
          obtain ⟨e, he, hfault⟩ := ih h
          exact ⟨e, List.mem_cons_of_mem c he, hfault⟩

theorem validateAt_error_cls {t : Tree} (ht : t.Typed) {f : Fault}
    (h : validateAt limit depth t = .error f) : f.cls = .shapeMismatch ∨ f.cls = .tooDeep := by
  induction ht generalizing depth with
  | absent =>
      cases h
      exact .inl rfl
  | @node l cs hcount hfits hcs ih =>
      rw [validateAt] at h
      cases hdepth : checkDepth limit depth with
      | error g =>
          rw [hdepth] at h
          cases h
          unfold checkDepth at hdepth
          split at hdepth
          · cases hdepth
            exact .inr rfl
          · cases hdepth
      | ok u =>
          rw [hdepth] at h
          cases hcheck : check l.kind cs with
          | error g =>
              rw [hcheck] at h
              cases h
              exact .inl (check_error_cls hcount hcheck)
          | ok u =>
              rw [hcheck] at h
              obtain ⟨c, hc, hfault⟩ := validateAll_error h
              exact ih c hc hfault

/-- The gates of a tree. Under any depth limit, validating, hashing, digesting, comparing with
itself, copying by a visitor, copying by a table and writing in binary fields either all succeed or
all fail, and then with one class, a shape mismatch or too great a depth. They succeed exactly if
the tree is there, no child of a node in it is absent, and it has at most one level more than the
limit. -/
theorem gates_agree (hasher : Hasher) (limit indent : Int) (compress : Bool) {t : Tree}
    (ht : t.Typed) :
    ∃ v : Except Fault.Class Unit,
      verdict (t.validate limit) = v ∧
      verdict (t.hash hasher limit) = v ∧
      verdict (t.digest limit) = v ∧
      verdict (t.compare limit t) = v ∧
      verdict (Visitor.identity.walk limit t).result = v ∧
      (∃ d, Dispatcher.ofTable .identity = .ok d ∧ verdict (d.visit limit t).result = v) ∧
      (∃ r, Codec.write limit { format := .ok .proto, indent, compress } t = r.mapError .fault ∧
        verdict r = v) ∧
      (v = .ok () ∨ v = .error .shapeMismatch ∨ v = .error .tooDeep) ∧
      (v = .ok () ↔ t ≠ .absent ∧ (∀ x ∈ t.nodes, .absent ∉ x.children) ∧
        (t.depth : Int) ≤ limit + 1) := by
  obtain ⟨d, htable, hvisit⟩ := visit_identity limit t
  refine ⟨verdict (t.validate limit), rfl, ?_, ?_, verdict_compareAt_self ht, ?_, ⟨d, htable, ?_⟩,
    ⟨_, write_proto_eq limit indent compress t, verdict_map _ _⟩, ?_, ?_⟩
  · rw [hash, verdict_map]
    exact verdict_markAt _ _ t
  · rw [digest, digestWith, verdict_map]
    exact verdict_markAt _ _ t
  · rw [walk_identity, verdict_map]
  · rw [hvisit, verdict_map]
  · cases hvalid : t.validate limit with
    | ok u => exact .inl rfl
    | error f =>
        rcases validateAt_error_cls ht hvalid with hcls | hcls
        · exact .inr (.inl (congrArg Except.error hcls))
        · exact .inr (.inr (congrArg Except.error hcls))
  · have hok : verdict (t.validate limit) = .ok () ↔ t.validate limit = .ok () := by
      rw [verdict_eq_ok_iff]
      exact ⟨fun ⟨_, hvalid⟩ => hvalid, fun hvalid => ⟨(), hvalid⟩⟩
    rw [hok, validate_eq_ok_iff, complete_iff, and_assoc]
    exact and_iff_right ht

/-- An operand on a fourth level comes before a conditional without condition, and decides. -/
theorem gates_agree_two_faults :
    let t := node .block [node .expression [node (.unary [0x2D] false) [node .null []]],
      node .ifElse [.absent, node .block []]]
    t.Typed ∧ ∃ v, verdict (t.validate 2) = v ∧ verdict (t.hash fnv1a 2) = v ∧
      verdict (t.digest 2) = v ∧ verdict (t.compare 2 t) = v ∧
      verdict (Visitor.identity.walk 2 t).result = v ∧ v = .error .tooDeep := by
  intro t
  have hleaf : ∀ h : Head, h.kind.admits 0 = true → (node h []).Typed := by
    intro h hcount
    exact .node hcount (by simp) (by simp)
  have hoperator : (node (.unary [0x2D] false) [node .null []]).Typed :=
    .node (by decide) (by decide) (List.forall_mem_singleton.mpr (hleaf _ (by decide)))
  have hconditional : (node .ifElse [.absent, node .block []]).Typed :=
    .node (by decide) (by decide) (List.forall_mem_cons.mpr
      ⟨.absent, List.forall_mem_singleton.mpr (hleaf _ (by decide))⟩)
  have ht : t.Typed :=
    .node (by decide) (by decide) (List.forall_mem_cons.mpr
      ⟨.node (by decide) (by decide) (List.forall_mem_singleton.mpr hoperator),
        List.forall_mem_singleton.mpr hconditional⟩)
  obtain ⟨v, hvalidate, hhash, hdigest, hcompare, hwalk, -⟩ := gates_agree fnv1a 2 0 false ht
  exact ⟨ht, v, hvalidate, hhash, hdigest, hcompare, hwalk, hvalidate.symm⟩

end Tree

end Arbor
