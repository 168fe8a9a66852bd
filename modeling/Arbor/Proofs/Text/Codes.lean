import Arbor.Text.Bytes
import Mathlib.Data.List.Forall2

/-! Where parts end by themselves a list of parts can be taken apart. -/
namespace Arbor

variable {α : Type} {code code' : α → Bytes} {R : α → α → Prop} {as bs : List α}

/-- Whatever follows them, equal codes come from related parts. -/
def Separates (code code' : α → Bytes) (R : α → α → Prop) (a b : α) : Prop :=
  ∀ s r, code a ++ s = code' b ++ r → R a b ∧ s = r

/-- Lists of as many parts can be taken apart. -/
theorem forall₂_of_flatMap (hcode : ∀ a ∈ as, ∀ b ∈ bs, Separates code code' R a b)
    (hlength : as.length = bs.length) {s r : Bytes}
    (h : as.flatMap code ++ s = bs.flatMap code' ++ r) : List.Forall₂ R as bs ∧ s = r := by
  induction as generalizing bs with
  | nil =>
      cases bs with
      | nil => exact ⟨.nil, h⟩
      | cons b bs => cases hlength
  | cons a as ih =>
      cases bs with
      | nil => cases hlength
      | cons b bs =>
          rw [List.flatMap_cons, List.flatMap_cons, List.append_assoc, List.append_assoc] at h
          obtain ⟨hfirst, hrest⟩ := hcode a List.mem_cons_self b List.mem_cons_self _ _ h
          obtain ⟨htail, hend⟩ := ih
            (fun c hc d hd => hcode c (List.mem_cons_of_mem a hc) d (List.mem_cons_of_mem b hd))
            (Nat.succ.inj hlength) hrest
          exact ⟨.cons hfirst htail, hend⟩

/-- Lists of parts that have a byte at least end where the bytes end. -/
theorem forall₂_of_flatMap_eq (hcode : ∀ a ∈ as, ∀ b ∈ bs, Separates code code' R a b)
    (has : ∀ a ∈ as, code a ≠ []) (hbs : ∀ b ∈ bs, code' b ≠ [])
    (h : as.flatMap code = bs.flatMap code') : List.Forall₂ R as bs := by
  induction as generalizing bs with
  | nil =>
      cases bs with
      | nil => exact .nil
      | cons b bs =>
          rw [List.flatMap_nil, List.flatMap_cons] at h
          exact absurd (List.append_eq_nil_iff.mp h.symm).1 (hbs b List.mem_cons_self)
  | cons a as ih =>
      cases bs with
      | nil =>
          rw [List.flatMap_nil, List.flatMap_cons] at h
          exact absurd (List.append_eq_nil_iff.mp h).1 (has a List.mem_cons_self)
      | cons b bs =>
          rw [List.flatMap_cons, List.flatMap_cons] at h
          obtain ⟨hfirst, hrest⟩ := hcode a List.mem_cons_self b List.mem_cons_self _ _ h
          exact .cons hfirst (ih
            (fun c hc d hd => hcode c (List.mem_cons_of_mem a hc) d (List.mem_cons_of_mem b hd))
            (fun c hc => has c (List.mem_cons_of_mem a hc))
            (fun d hd => hbs d (List.mem_cons_of_mem b hd)) hrest)

end Arbor
