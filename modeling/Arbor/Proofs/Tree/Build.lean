import Arbor.Proofs.Tree.Dispatch

/-! A node can be built over the children that fit its kind, and over no others. -/
namespace Arbor

namespace Kind

theorem ofOrdinal?_eq_some_iff {n : Int} {k : Kind} :
    ofOrdinal? n = some k ↔ (k.ordinal : Int) = n := by
  constructor
  · intro h
    simpa using List.find?_some h
  · rintro rfl
    cases k <;> rfl

theorem admits_eq_false_iff {k : Kind} {count : Nat} :
    k.admits count = false ↔ count < k.arity.1 ∨ ∃ most, k.arity.2 = some most ∧ most < count := by
  rw [admits, Bool.and_eq_false_iff, decide_eq_false_iff_not, Nat.not_le]
  cases k.arity.2 <;> simp

end Kind

/-- The attributes that nodes of a kind carry; the others are zero. -/
def Payload.restrict (k : Kind) (p : Payload) : Payload where
  int := if k = .integerLiteral then p.int else 0
  float := if k = .floatLiteral then p.float else .zero
  bool := if k ∈ [.booleanLiteral, .unaryOperator] then p.bool else false
  str := if k ∈ [.stringLiteral, .identifier, .unaryOperator, .binaryOperator, .memberReference]
    then p.str else []

theorem Head.payload_ofPayload (k : Kind) (p : Payload) :
    (Head.ofPayload k p).payload = p.restrict k := by
  cases k <;> rfl

namespace Tree

/-- A child that may stand at a position: a node of the family of the position. -/
def Belongs (k : Kind) (i : Nat) : Tree → Prop
  | absent => False
  | node h _ => h.kind.family = k.slot i

/-- What is reported of a child that does not belong at its position. -/
inductive Misplaced (k : Kind) (i : Nat) : Tree → Fault → Prop
  | absent : Misplaced k i .absent (.childAbsent k i)
  | family {h : Head} {cs : List Tree} : h.kind.family ≠ k.slot i →
      Misplaced k i (.node h cs) (.childFamily k i h.kind (k.slot i))

variable {k : Kind} {i : Nat} {c : Tree} {cs : List Tree} {f : Fault}

theorem Misplaced.not_belongs (h : Misplaced k i c f) : ¬ Belongs k i c := by
  cases h with
  | absent => exact id
  | family hfamily => exact hfamily

theorem Misplaced.cls (h : Misplaced k i c f) : f.cls = .shapeMismatch := by
  cases h with
  | absent => rfl
  | family hfamily => rfl

/-- One step of the check: the first child passes and the others are checked, or it is reported. -/
theorem checkChildren_cons (k : Kind) (i : Nat) (c : Tree) (cs : List Tree) :
    (Belongs k i c ∧ checkChildren k i (c :: cs) = checkChildren k (i + 1) cs) ∨
      ∃ f, Misplaced k i c f ∧ checkChildren k i (c :: cs) = .error f := by
  cases c with
  | absent => exact .inr ⟨_, .absent, rfl⟩
  | node h ds =>
      by_cases hfamily : h.kind.family = k.slot i
      · exact .inl ⟨hfamily, by rw [checkChildren, if_pos hfamily]⟩
      · exact .inr ⟨_, .family hfamily, by rw [checkChildren, if_neg hfamily]⟩

/-- The check passes if every child belongs where it stands; else it reports the first that does
not. -/
theorem checkChildren_eq (k : Kind) (i : Nat) (cs : List Tree) :
    ((∀ j c, cs[j]? = some c → Belongs k (i + j) c) ∧ checkChildren k i cs = .ok ()) ∨
      ∃ j c f, cs[j]? = some c ∧ Misplaced k (i + j) c f ∧ checkChildren k i cs = .error f ∧
        ∀ m < j, ∀ d, cs[m]? = some d → Belongs k (i + m) d := by
  induction cs generalizing i with
  | nil => exact .inl ⟨by simp, rfl⟩
  | cons c cs ih =>
      rcases checkChildren_cons k i c cs with ⟨hc, hstep⟩ | ⟨f, hf, hstep⟩
      · -- a position among the other children is one less than in the whole list
        have hshift : ∀ j, i + 1 + j = i + (j + 1) := by omega
        rw [hstep]
        rcases ih (i + 1) with ⟨hcs, hok⟩ | ⟨j, d, f, hd, hf, herror, hbefore⟩
        · refine .inl ⟨?_, hok⟩
          rintro (_ | j) d hd
          · cases hd
            exact hc
          · exact hshift j ▸ hcs j d hd
        · refine .inr ⟨j + 1, d, f, hd, hshift j ▸ hf, herror, ?_⟩
          rintro (_ | m) hm e he
          · cases he
            exact hc
          · exact hshift m ▸ hbefore m (Nat.lt_of_succ_lt_succ hm) e he
      · exact .inr ⟨0, c, f, rfl, hf, hstep, fun m hm => absurd hm (Nat.not_lt_zero m)⟩

theorem build_of_noKind {n : Int} (p : Payload) (hn : ∀ k : Kind, (k.ordinal : Int) ≠ n) :
    build n p cs = .error (.noKind n) := by
  have hnone : Kind.ofOrdinal? n = none := by
    rw [← Option.isNone_iff_eq_none, Kind.isNone_ofOrdinal?_iff]
    exact fun k hk => hn k hk.symm
  rw [build, hnone]

theorem build_ordinal (k : Kind) (p : Payload) (cs : List Tree) :
    build k.ordinal p cs = ofKind k p cs := by
  rw [build, Kind.ofOrdinal?_eq_some_iff.mpr rfl]

theorem ofKind_of_not_admits (p : Payload) (hcount : k.admits cs.length = false) :
    ofKind k p cs = .error (.childCount k cs.length) := by
  rw [ofKind, check, hcount]
  rfl

/-- With a number of children within the arity, the node is built if every child belongs where it
stands; else the first that does not is reported. -/
theorem ofKind_of_admits (p : Payload) (hcount : k.admits cs.length = true) :
    ((∀ i c, cs[i]? = some c → Belongs k i c) ∧
        ofKind k p cs = .ok (.node (Head.ofPayload k p) cs)) ∨
      ∃ i c f, cs[i]? = some c ∧ Misplaced k i c f ∧ ofKind k p cs = .error f ∧
        ∀ j < i, ∀ d, cs[j]? = some d → Belongs k j d := by
  have hcheck := checkChildren_eq k 0 cs
  simp only [Nat.zero_add] at hcheck
  rw [ofKind, check, if_pos hcount]
  rcases hcheck with ⟨hcs, hok⟩ | ⟨i, c, f, hc, hf, herror, hbefore⟩
  · exact .inl ⟨hcs, by rw [hok]; rfl⟩
  · exact .inr ⟨i, c, f, hc, hf, by rw [herror]; rfl, hbefore⟩

theorem ofKind_of_typed {h : Head} (ht : Typed (.node h cs)) (hcs : .absent ∉ cs) :
    ofKind h.kind h.payload cs = .ok (.node h cs) := by
  cases ht with
  | node hcount hfits _ =>
      have hcheck : check h.kind cs = .ok () := check_eq_ok_iff_fits.mpr ⟨hcount, hcs, hfits⟩
      exact ofKind_eq_ok_iff.mpr ⟨hcheck, by rw [Head.ofPayload_payload]⟩

theorem build_malformed_iff {n : Int} {p : Payload} {cs : List Tree} :
    (∃ f, build n p cs = .error f ∧ f.cls = .malformed) ↔
      (∀ k : Kind, (k.ordinal : Int) ≠ n) ∨
        ∃ k : Kind, (k.ordinal : Int) = n ∧
          (cs.length < k.arity.1 ∨ ∃ most, k.arity.2 = some most ∧ most < cs.length) := by
  constructor
  · rintro ⟨f, hf, hcls⟩
    by_cases hn : ∃ k : Kind, (k.ordinal : Int) = n
    · obtain ⟨k, rfl⟩ := hn
      refine .inr ⟨k, rfl, Kind.admits_eq_false_iff.mp ?_⟩
      rw [build_ordinal] at hf
      -- within the arity there is no fault but a mismatch of shapes
      by_contra hcount
      rcases ofKind_of_admits p (eq_true_of_ne_false hcount) with
        ⟨-, hok⟩ | ⟨i, c, g, -, hg, herror, -⟩
      · cases hf.symm.trans hok
      · cases hf.symm.trans herror
        cases hcls.symm.trans hg.cls
    · exact .inl fun k hk => hn ⟨k, hk⟩
  · rintro (hn | ⟨k, rfl, hcount⟩)
    · exact ⟨_, build_of_noKind p hn, rfl⟩
    · refine ⟨.childCount k cs.length, ?_, rfl⟩
      rw [build_ordinal, ofKind_of_not_admits p (Kind.admits_eq_false_iff.mpr hcount)]

/-- Building is refused as malformed exactly if the ordinal is that of no kind or the number of
children is outside the arity of the kind. Otherwise it is refused as a mismatch of shapes exactly
if some child does not belong where it stands, and the first of these is reported. Otherwise it
gives the node of the kind over these children, with the attributes that the kind carries. A node
whose children are all there is what is built from its kind, its attributes and its children. -/
theorem build_takes_fitting (n : Int) (p : Payload) (cs : List Tree) :
    ((∃ f, build n p cs = .error f ∧ f.cls = .malformed) ↔
      (∀ k : Kind, (k.ordinal : Int) ≠ n) ∨
        ∃ k : Kind, (k.ordinal : Int) = n ∧
          (cs.length < k.arity.1 ∨ ∃ most, k.arity.2 = some most ∧ most < cs.length)) ∧
    (∀ k : Kind, (k.ordinal : Int) = n → k.admits cs.length = true →
      ((∃ f, build n p cs = .error f ∧ f.cls = .shapeMismatch) ↔
        ∃ i c, cs[i]? = some c ∧ ¬ Belongs k i c) ∧
      (∀ f, build n p cs = .error f → ∃ i c, cs[i]? = some c ∧ Misplaced k i c f ∧
        ∀ j < i, ∀ d, cs[j]? = some d → Belongs k j d) ∧
      ((∀ i c, cs[i]? = some c → Belongs k i c) →
        ∃ h, build n p cs = .ok (.node h cs) ∧ h.kind = k ∧ h.payload = p.restrict k)) ∧
    ∀ (h : Head) (ds : List Tree), Typed (.node h ds) → .absent ∉ ds →
      build h.kind.ordinal h.payload ds = .ok (.node h ds) := by
  refine ⟨build_malformed_iff, ?_, ?_⟩
  · rintro k rfl hcount
    rw [build_ordinal]
    rcases ofKind_of_admits p hcount with ⟨hcs, hok⟩ | ⟨i, c, f, hc, hf, herror, hbefore⟩
    · refine ⟨⟨?_, ?_⟩, ?_, fun _ => ⟨_, hok, Head.kind_ofPayload k p, Head.payload_ofPayload k p⟩⟩
      · rintro ⟨f, hf, -⟩
        cases hf.symm.trans hok
      · rintro ⟨i, c, hc, hbelongs⟩
        exact absurd (hcs i c hc) hbelongs
      · intro f hf
        cases hf.symm.trans hok
    · refine ⟨⟨fun _ => ⟨i, c, hc, hf.not_belongs⟩, fun _ => ⟨f, herror, hf.cls⟩⟩, ?_, ?_⟩
      · intro g hg
        cases hg.symm.trans herror
        exact ⟨i, c, hc, hf, hbefore⟩
      · intro hcs
        exact absurd (hcs i c hc) hf.not_belongs
  · intro h ds ht hds
    rw [build_ordinal]
    exact ofKind_of_typed ht hds

/-- In a loop with an expression in place of its first statement and nothing in place of its body,
the expression is reported. With three children the loop is malformed, whatever they are. A
conditional over a condition and a branch is built, and keeps nothing of the attributes. -/
theorem build_takes_fitting_loop :
    let x := node (.identifier [120]) []
    let block := node .block []
    let p : Payload := { int := 7, str := [120] }
    (∃ f, build 14 p [x, x, block, .absent] = .error f ∧ Misplaced .forStatement 0 x f) ∧
      (∃ f, build 14 p [x, .absent, x] = .error f ∧ f.cls = .malformed) ∧
      (∃ h, build 13 p [x, block] = .ok (.node h [x, block]) ∧ h.payload = {}) ∧
      build (Head.kind .block).ordinal (Head.payload .block) [block] =
        .ok (.node .block [block]) := by
  intro x block p
  refine ⟨?_, ?_, ?_, ?_⟩
  · obtain ⟨hrefused, hreported, -⟩ :=
      (build_takes_fitting 14 p [x, x, block, .absent]).2.1 .forStatement rfl rfl
    obtain ⟨f, hf, -⟩ := hrefused.mpr ⟨0, x, rfl, by intro h; cases h⟩
    obtain ⟨i, c, hc, hmisplaced, hbefore⟩ := hreported f hf
    cases i with
    | zero =>
        cases hc
        exact ⟨f, hf, hmisplaced⟩
    | succ i => cases hbefore 0 (Nat.succ_pos i) x rfl
  · exact (build_takes_fitting 14 p [x, .absent, x]).1.mpr
      (.inr ⟨.forStatement, rfl, .inl (by decide)⟩)
  · obtain ⟨-, -, hbuilt⟩ := (build_takes_fitting 13 p [x, block]).2.1 .ifElseStatement rfl rfl
    have hcs : ∀ i c, [x, block][i]? = some c → Belongs .ifElseStatement i c := by
      rintro (_ | _ | i) c hc
      · cases hc
        rfl
      · cases hc
        rfl
      · cases hc
    obtain ⟨h, hok, -, hpayload⟩ := hbuilt hcs
    exact ⟨h, hok, hpayload⟩
  · have hblock : block.Typed := .node rfl (by simp) (by simp)
    refine (build_takes_fitting 12 p []).2.2 .block [block] ?_ (by simp [block])
    exact .node rfl (by decide) (List.forall_mem_singleton.mpr hblock)

end Tree

end Arbor
