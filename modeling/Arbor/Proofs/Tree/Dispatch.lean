import Arbor.Proofs.Codec.Acceptance

/-! A dispatcher walks over trees as the visitor with the same handlers does. -/
namespace Arbor

namespace Kind

theorem mem_all (k : Kind) : k ∈ all := by
  cases k <;> decide

theorem isNone_ofOrdinal?_iff {n : Int} : (ofOrdinal? n).isNone ↔ ∀ k : Kind, n ≠ k.ordinal := by
  rw [Option.isNone_iff_eq_none, ofOrdinal?, List.find?_eq_none]
  constructor
  · intro h k hk
    exact h k (mem_all k) (decide_eq_true hk.symm)
  · intro h k _ hk
    exact h k (of_decide_eq_true hk).symm

end Kind

namespace HandlerTable

variable {table : HandlerTable}

/-- Every kind has a handler under its ordinal. -/
def Covers (table : HandlerTable) : Prop :=
  ∀ k : Kind, ∃ f, table.lookup (k.ordinal : Int) = some (some f)

/-- Every key is the ordinal of a kind. -/
def Tidy (table : HandlerTable) : Prop :=
  ∀ e ∈ table, ∃ k : Kind, e.1 = k.ordinal

theorem handler?_eq_some_iff {k : Kind} {f : Handler} :
    table.handler? k = some f ↔ table.lookup (k.ordinal : Int) = some (some f) :=
  Option.join_eq_some_iff

theorem missing_eq_nil_iff : table.missing = [] ↔ table.Covers := by
  rw [missing, List.filter_eq_nil_iff]
  constructor
  · intro h k
    have hhandler : table.handler? k ≠ none := by
      rw [← Option.isNone_iff_eq_none.ne]
      exact h k k.mem_all
    obtain ⟨f, hf⟩ := Option.ne_none_iff_exists'.mp hhandler
    exact ⟨f, handler?_eq_some_iff.mp hf⟩
  · intro h k _
    obtain ⟨f, hf⟩ := h k
    rw [handler?_eq_some_iff.mpr hf]
    exact Bool.false_ne_true

theorem stray?_eq_none_iff : table.stray? = none ↔ table.Tidy := by
  rw [stray?, Option.map_eq_none_iff, List.find?_eq_none]
  refine forall₂_congr ?_
  intro e _
  rw [Kind.isNone_ofOrdinal?_iff]
  simp

end HandlerTable

namespace Dispatcher

variable {table : HandlerTable}

theorem ofTable_eq_ok_iff {d : Dispatcher} :
    ofTable table = .ok d ↔ table.Covers ∧ table.Tidy ∧ d = ⟨table.handler?⟩ := by
  rw [← HandlerTable.missing_eq_nil_iff, ← HandlerTable.stray?_eq_none_iff, ofTable]
  split
  next hmissing =>
    cases table.stray? with
    | none => simp [hmissing, eq_comm]
    | some n => simp
  next hmissing => simp [hmissing]

theorem ofTable_of_not_covers (h : ¬ table.Covers) :
    ofTable table = .error (.noHandlers table.missing) := by
  rw [← HandlerTable.missing_eq_nil_iff] at h
  rw [ofTable, if_neg h]

theorem ofTable_of_not_tidy (hcovers : table.Covers) (h : ¬ table.Tidy) :
    ∃ n, ofTable table = .error (.strayHandler n) := by
  rw [← HandlerTable.missing_eq_nil_iff] at hcovers
  rw [← HandlerTable.stray?_eq_none_iff] at h
  obtain ⟨n, hn⟩ := Option.ne_none_iff_exists'.mp h
  exact ⟨n, by rw [ofTable, if_pos hcovers, hn]⟩

end Dispatcher

theorem Visitor.apply_eq {v : Visitor} {d : Dispatcher}
    (h : ∀ k, d.handler k = some (v.handler k)) : v.apply = d.apply := by
  funext t
  cases t with
  | absent => rfl
  | node l cs => simp only [Visitor.apply, Dispatcher.apply, h]

namespace Walk

variable {α β : Type} {handler : Handler}

/-- A walk that ends with an unhandled variant ends with the call that raised it. -/
def Blames (handler : Handler) (w : Walk α) : Prop :=
  ∀ e, w.result = .error e → e.cls = .unhandledVariant →
    ∃ before h cs, w.handed = before ++ [.node h cs] ∧ handler (.node h cs) = .error e

theorem blames_pure (a : α) : (pure a : Walk α).Blames handler := by
  intro e he
  cases he

theorem blames_fail {f : Fault} (hf : f.cls ≠ .unhandledVariant) :
    (fail f : Walk α).Blames handler := by
  intro e he hcls
  cases he
  exact absurd hcls hf

theorem blames_ofExcept {x : Except Fault α} (hx : ∀ f, x = .error f → f.cls ≠ .unhandledVariant) :
    (ofExcept x).Blames handler := by
  cases x with
  | ok a => exact blames_pure a
  | error f => exact blames_fail (hx f rfl)

theorem blames_hand (h : Head) (cs : List Tree) : (hand handler (.node h cs)).Blames handler := by
  intro e he _
  exact ⟨[], h, cs, rfl, he⟩

/-- What was handed over before stays in front of the call that fails. -/
theorem Blames.bind {w : Walk α} {next : α → Walk β} (hw : w.Blames handler)
    (hnext : ∀ a, w.result = .ok a → (next a).Blames handler) : (w >>= next).Blames handler := by
  intro e he hcls
  rw [result_bind] at he
  show ∃ before h cs, (Walk.bind w next).handed = _ ∧ _
  unfold Walk.bind
  cases hresult : w.result with
  | error f =>
      rw [hresult] at he
      cases he
      exact hw e hresult hcls
  | ok a =>
      rw [hresult] at he
      obtain ⟨before, h, cs, hhanded, hhandler⟩ := hnext a hresult e he hcls
      refine ⟨w.handed ++ before, h, cs, ?_, hhandler⟩
      rw [List.append_assoc, ← hhanded]

end Walk

namespace Tree

variable {handler : Handler} {limit : Int}

theorem checkDepth_error_cls {depth : Nat} {f : Fault} (h : checkDepth limit depth = .error f) :
    f.cls ≠ .unhandledVariant := by
  rw [checkDepth] at h
  split at h
  · cases h
    intro hcls
    cases hcls
  · cases h

theorem check_error_cls_ne {k : Kind} {cs : List Tree} {f : Fault} (h : check k cs = .error f) :
    f.cls ≠ .unhandledVariant := by
  by_cases hcount : k.admits cs.length = true
  · rw [check_error_cls hcount h]
    decide
  · rw [check, if_neg hcount] at h
    cases h
    intro hcls
    cases hcls

theorem ofKind_error_cls_ne {k : Kind} {p : Payload} {cs : List Tree} {f : Fault}
    (h : ofKind k p cs = .error f) : f.cls ≠ .unhandledVariant := by
  rw [ofKind] at h
  cases hcheck : check k cs with
  | error g =>
      rw [hcheck] at h
      cases h
      exact check_error_cls_ne hcheck
  | ok u =>
      rw [hcheck] at h
      cases h

theorem blames_rebuildAll {depth : Nat} {cs : List Tree}
    (hcs : ∀ c ∈ cs, (rebuildAt handler limit depth c).Blames handler) :
    (rebuildAll handler limit depth cs).Blames handler := by
  induction cs with
  | nil => exact Walk.blames_pure []
  | cons c cs ih =>
      rw [rebuildAll]
      refine (hcs c List.mem_cons_self).bind ?_
      intro u _
      refine (ih fun e he => hcs e (List.mem_cons_of_mem c he)).bind ?_
      intro us _
      exact Walk.blames_pure _

/-- The step of a walk checks and builds with faults of other classes, so only the handler can leave
a variant unhandled. -/
theorem blames_rebuildAt (depth : Nat) (t : Tree) :
    (rebuildAt handler limit depth t).Blames handler := by
  induction t generalizing depth with
  | absent => exact Walk.blames_fail (by decide)
  | node h cs ih =>
      rw [rebuildAt]
      refine (Walk.blames_ofExcept fun f => checkDepth_error_cls).bind fun _ _ => ?_
      refine (Walk.blames_ofExcept fun f => check_error_cls_ne).bind fun _ _ => ?_
      refine (blames_rebuildAll fun c hc => ih c hc (depth + 1)).bind fun visited _ => ?_
      refine (Walk.blames_ofExcept fun f => ofKind_error_cls_ne).bind fun fresh hfresh => ?_
      rw [Walk.result_ofExcept, ofKind_eq_ok_iff] at hfresh
      obtain ⟨-, rfl⟩ := hfresh
      refine (Walk.blames_hand _ _).bind fun result _ => ?_
      split
      · refine Walk.blames_fail ?_
        intro hcls
        cases hcls
      · exact Walk.blames_pure _

end Tree

/-- A table makes a dispatcher exactly if it has a handler for every kind and no other key; a kind
without a handler is reported before a key that is no kind. The dispatcher and the visitor with the
same handlers hand the same nodes to the same handlers in the same order, with the same result, on
all trees and under all limits. An unhandled variant is reported by the last handler that was
called, or not at all. -/
theorem dispatch_agrees_with_walk (table : HandlerTable) :
    ((∃ d, Dispatcher.ofTable table = .ok d) ↔ table.Covers ∧ table.Tidy) ∧
    (¬ table.Covers → ∃ e, Dispatcher.ofTable table = .error e ∧ e.cls = .unhandledVariant) ∧
    (table.Covers → ¬ table.Tidy →
      ∃ e, Dispatcher.ofTable table = .error e ∧ e.cls = .malformed) ∧
    ∀ d, Dispatcher.ofTable table = .ok d →
      ∀ v : Visitor, (∀ k, table.lookup (k.ordinal : Int) = some (some (v.handler k))) →
        (∀ k, d.handler k = some (v.handler k)) ∧
        ∀ limit t, v.walk limit t = d.visit limit t ∧
          ∀ e, (d.visit limit t).result = .error e → e.cls = .unhandledVariant →
            ∃ before h cs, (d.visit limit t).handed = before ++ [.node h cs] ∧
              v.handler h.kind (.node h cs) = .error e := by
  refine ⟨?_, ?_, ?_, ?_⟩
  · simp only [Dispatcher.ofTable_eq_ok_iff]
    constructor
    · rintro ⟨d, hcovers, htidy, -⟩
      exact ⟨hcovers, htidy⟩
    · rintro ⟨hcovers, htidy⟩
      exact ⟨_, hcovers, htidy, rfl⟩
  · intro h
    exact ⟨_, Dispatcher.ofTable_of_not_covers h, rfl⟩
  · intro hcovers h
    obtain ⟨n, hn⟩ := Dispatcher.ofTable_of_not_tidy hcovers h
    exact ⟨_, hn, rfl⟩
  · intro d hd v hv
    obtain ⟨-, -, rfl⟩ := Dispatcher.ofTable_eq_ok_iff.mp hd
    have hhandler : ∀ k, Dispatcher.handler ⟨table.handler?⟩ k = some (v.handler k) := by
      intro k
      exact HandlerTable.handler?_eq_some_iff.mpr (hv k)
    have happly := Visitor.apply_eq hhandler
    refine ⟨hhandler, fun limit t => ⟨by rw [Visitor.walk, happly, Dispatcher.visit], ?_⟩⟩
    rw [Dispatcher.visit, ← happly]
    exact Tree.blames_rebuildAt 0 t

/-- The handler of identifiers leaves them unhandled, that of blocks gives no node, and the others
return their input. The invocation is over when its target fails, so the literal after it is never
handed over. -/
theorem dispatch_agrees_with_walk_unhandled :
    let handler : Kind → Handler
      | .identifier => fun _ => .error (.unhandled .identifier)
      | .blockStatement => fun _ => .ok .absent
      | _ => .ok
    let table : HandlerTable := Kind.all.map fun k => ((k.ordinal : Int), some (handler k))
    let x := Tree.node (.identifier [120]) []
    let call := Tree.node .invocation [x, .node .null []]
    ∃ d, Dispatcher.ofTable table = .ok d ∧
      (Visitor.mk handler).walk 9 call = d.visit 9 call ∧
      d.visit 9 call = ⟨[x], .error (.unhandled .identifier)⟩ ∧
      (d.visit 9 (.node .block [])).result = .error (.noResult .blockStatement) ∧
      ∃ e, Dispatcher.ofTable ((99, none) :: table) = .error e ∧ e.cls = .malformed := by
  intro handler table x call
  have hlookup : ∀ k : Kind, table.lookup (k.ordinal : Int) = some (some (handler k)) := by
    intro k
    cases k <;> rfl
  have hcovers : table.Covers := fun k => ⟨handler k, hlookup k⟩
  have htidy : table.Tidy := by
    intro e he
    obtain ⟨k, -, rfl⟩ := List.mem_map.mp he
    exact ⟨k, rfl⟩
  obtain ⟨hok, -, -, hagrees⟩ := dispatch_agrees_with_walk table
  obtain ⟨d, hd⟩ := hok.mpr ⟨hcovers, htidy⟩
  obtain ⟨-, hwalk⟩ := hagrees d hd ⟨handler⟩ hlookup
  refine ⟨d, hd, (hwalk 9 call).1, ?_, ?_, ?_⟩
  · rw [← (hwalk 9 call).1]
    rfl
  · rw [← (hwalk 9 (.node .block [])).1]
    rfl
  · refine (dispatch_agrees_with_walk ((99, none) :: table)).2.2.1 ?_ ?_
    · intro k
      refine ⟨handler k, ?_⟩
      cases k <;> rfl
    · intro h
      obtain ⟨k, hk⟩ := h (99, none) List.mem_cons_self
      cases k <;> cases hk

end Arbor
