import Arbor.Proofs.Digest.Collision
import Arbor.Proofs.Number.Spelling
import Arbor.Proofs.Text.Unquote
import Arbor.Proofs.Tree.Equality
import Arbor.Tree.Outline

/-! Two nodes have one label if they are the same up to their children and signs of zeros. -/
namespace Arbor

namespace Binary64

variable {x y : Binary64}

def isMinusZero (x : Binary64) : Bool := x.isZero && x.negative

theorem eq_zero_or_minus (hx : x.isZero = true) : x = ⟨0⟩ ∨ x = ⟨0x8000000000000000⟩ := by
  have hmagnitude : x.magnitude = 0 := isZero_iff.mp hx
  cases hsign : x.negative with
  | false => exact .inl (eq_of_parts hsign hmagnitude)
  | true => exact .inr (eq_of_parts hsign hmagnitude)

/-- The general text keeps the number, and the sign of a zero. -/
theorem float?_general_eq (x : Binary64) :
    Reading.float? x.general = some (if x.isZero then x else x.canonical) := by
  cases hzero : x.isZero with
  | false => exact float?_general hzero
  | true => rcases eq_zero_or_minus hzero with rfl | rfl <;> rfl

theorem newline_not_mem_general (x : Binary64) : 10 ∉ x.general := by
  cases hzero : x.isZero with
  | false => exact (isToken_general hzero).not_mem rfl
  | true => rcases eq_zero_or_minus hzero with rfl | rfl <;> decide

theorem general_eq_iff :
    x.general = y.general ↔ x.Same y ∧ x.isMinusZero = y.isMinusZero := by
  constructor
  · intro hgeneral
    have hread := congrArg Reading.float? hgeneral
    rw [float?_general_eq, float?_general_eq, Option.some.injEq] at hread
    have hzero : x.isZero = y.isZero := by
      have hzero := congrArg isZero hread
      rwa [apply_ite isZero, apply_ite isZero, isZero_canonical, isZero_canonical, ite_self,
        ite_self] at hzero
    rw [← hzero] at hread
    split at hread
    next =>
      rw [hread]
      exact ⟨.inl rfl, rfl⟩
    next hx =>
      refine ⟨canonicalBits_eq_iff.mp (congrArg bits hread), ?_⟩
      rw [isMinusZero, isMinusZero, ← hzero, eq_false_of_ne_true hx, Bool.false_and, Bool.false_and]
  · rintro ⟨rfl | ⟨hx, hy⟩ | ⟨hx, hy⟩, hminus⟩
    · rfl
    · rw [isMinusZero, isMinusZero, hx, hy, Bool.true_and, Bool.true_and] at hminus
      rw [eq_of_parts hminus ((isZero_iff.mp hx).trans (isZero_iff.mp hy).symm)]
    · rw [general_of_isNaN hx, general_of_isNaN hy]

end Binary64

theorem boolWord_inj {a b : Bool} (h : boolWord a = boolWord b) : a = b := by
  revert a b
  decide

/-- Whether an operator stands behind its operand is told by what follows the quotes. -/
theorem postfix_inj {a b : Bool}
    (h : (if a then Bytes.ofString " postfix" else []) =
      if b then Bytes.ofString " postfix" else []) : a = b := by
  revert a b
  decide

namespace Head

variable {h k : Head}

def isMinusZero : Head → Bool
  | float x => x.isMinusZero
  | _ => false

/-- A name stays on its line: there is no newline in it. -/
def KeepsLine : Head → Prop
  | identifier name | member name => 10 ∉ name
  | _ => True

theorem eq_blank_of_head?_labelPayload {c : UInt8} (hc : h.labelPayload.head? = some c) :
    c = 32 := by
  cases h <;> cases hc <;> rfl

theorem takeWhile_label (h : Head) :
    h.label.takeWhile Bytes.isTokenByte = Bytes.ofString h.kind.name := by
  refine Bytes.takeWhile_append (Bytes.IsToken.name h.kind) fun c hc => ?_
  rw [eq_blank_of_head?_labelPayload hc]
  rfl

/-- The payload is shown in full, but for the patterns of NaNs. -/
theorem labelPayload_inj (hkind : h.kind = k.kind) (hpayload : h.labelPayload = k.labelPayload) :
    h.Same k ∧ h.isMinusZero = k.isMinusZero := by
  cases h <;> cases k <;> cases hkind
  case integer.integer m n =>
    have hread := congrArg Reading.integer? (List.cons.inj hpayload).2
    rw [Reading.integer?_ofInt, Reading.integer?_ofInt] at hread
    cases hread
    exact ⟨.refl _, rfl⟩
  case float.float x y =>
    obtain ⟨hsame, hminus⟩ := Binary64.general_eq_iff.mp (List.cons.inj hpayload).2
    exact ⟨.float hsame, hminus⟩
  case boolean.boolean a b =>
    rw [boolWord_inj (List.cons.inj hpayload).2]
    exact ⟨.refl _, rfl⟩
  case string.string a b =>
    rw [Quoted.encode_inj (List.cons.inj hpayload).2]
    exact ⟨.refl _, rfl⟩
  case unary.unary a trailing b trailing' =>
    obtain ⟨rfl, hsuffix⟩ := Quoted.encode_append_inj (List.cons.inj hpayload).2
    rw [postfix_inj hsuffix]
    exact ⟨.refl _, rfl⟩
  case binary.binary a b =>
    rw [Quoted.encode_inj (List.cons.inj hpayload).2]
    exact ⟨.refl _, rfl⟩
  case identifier.identifier a b =>
    rw [(List.cons.inj hpayload).2]
    exact ⟨.refl _, rfl⟩
  case member.member a b =>
    rw [(List.cons.inj hpayload).2]
    exact ⟨.refl _, rfl⟩
  all_goals exact ⟨.refl _, rfl⟩

/-- Labels tell everything about nodes that counts, and the signs of zeros besides. -/
theorem label_eq_iff : h.label = k.label ↔ h.Same k ∧ h.isMinusZero = k.isMinusZero := by
  constructor
  · intro hlabel
    have hname := congrArg (List.takeWhile Bytes.isTokenByte) hlabel
    rw [takeWhile_label, takeWhile_label] at hname
    have hkind : h.kind = k.kind := Kind.name_inj (Bytes.ofString_inj hname)
    rw [label, label, hkind] at hlabel
    exact labelPayload_inj hkind (List.append_cancel_left hlabel)
  · rintro ⟨hsame, hminus⟩
    cases hsame with
    | refl => rfl
    | float hxy =>
        have hgeneral := Binary64.general_eq_iff.mpr ⟨hxy, hminus⟩
        rw [label, label, labelPayload, labelPayload, hgeneral]
        rfl

theorem newline_not_mem_label (hname : h.KeepsLine) : 10 ∉ h.label := by
  have hquoted : ∀ b, 10 ∉ Quoted.encode b := fun b h => absurd (Quoted.low_encode b h) (by decide)
  have hpayload : 10 ∉ h.labelPayload := by
    cases h with
    | integer v =>
        exact List.not_mem_cons_of_ne_of_not_mem (by decide) ((Bytes.IsToken.ofInt _).not_mem rfl)
    | float x => exact List.not_mem_cons_of_ne_of_not_mem (by decide) x.newline_not_mem_general
    | boolean b => cases b <;> decide
    | string b => exact List.not_mem_cons_of_ne_of_not_mem (by decide) (hquoted b)
    | identifier name => exact List.not_mem_cons_of_ne_of_not_mem (by decide) hname
    | unary op trailing =>
        refine List.not_mem_cons_of_ne_of_not_mem (by decide) ?_
        rw [List.mem_append, not_or]
        refine ⟨hquoted op, ?_⟩
        cases trailing <;> decide
    | binary op => exact List.not_mem_cons_of_ne_of_not_mem (by decide) (hquoted op)
    | member name => exact List.not_mem_cons_of_ne_of_not_mem (by decide) hname
    | _ => exact List.not_mem_nil
  rw [label, List.mem_append, not_or]
  exact ⟨(Bytes.IsToken.name h.kind).not_mem rfl, hpayload⟩

end Head

end Arbor
