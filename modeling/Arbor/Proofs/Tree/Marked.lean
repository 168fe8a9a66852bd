import Arbor.Proofs.Tree.Equality
import Arbor.Proofs.Wire.Words

/-! The value at a node is what its subtree alone determines. -/
namespace Arbor

namespace Head

theorem lt_word (n : UInt64) : n.toNat < 256 ^ 8 := n.toNat_lt

theorem truth_inj {a b : Bool} {s t : Bytes}
    (h : (if a then 1 else 0 : UInt8) :: s = (if b then 1 else 0) :: t) : a = b ∧ s = t := by
  cases a <;> cases b <;> simp_all

theorem word_append_inj {m n : UInt64} {s t : Bytes}
    (h : Wire.littleEndian 8 m.toNat ++ s = Wire.littleEndian 8 n.toNat ++ t) : m = n ∧ s = t := by
  obtain ⟨hword, hrest⟩ := List.append_inj h (by simp only [Wire.littleEndian_length])
  exact ⟨UInt64.toNat_inj.mp (Wire.littleEndian_inj (lt_word m) (lt_word n) hword), hrest⟩

/-- Payloads of one kind with the same bytes, whatever follows them, are the same. -/
theorem payloadBytes_append_inj {h k : Head} {s t : Bytes} (hkind : h.kind = k.kind)
    (hbytes : h.payloadBytes ++ s = k.payloadBytes ++ t) : h.Same k ∧ s = t := by
  cases h <;> cases k <;> cases hkind
  case integer.integer.refl x y =>
      obtain ⟨hword, hrest⟩ := word_append_inj hbytes
      have hxy : x = y := congrArg UInt64.toInt64 hword
      exact ⟨hxy ▸ .refl _, hrest⟩
  case float.float.refl x y =>
      obtain ⟨hword, hrest⟩ := word_append_inj hbytes
      exact ⟨.float (Binary64.canonicalBits_eq_iff.mp hword), hrest⟩
  case boolean.boolean.refl x y =>
      obtain ⟨hbit, hrest⟩ := truth_inj hbytes
      exact ⟨hbit ▸ .refl _, hrest⟩
  case unary.unary.refl x a y b =>
      simp only [payloadBytes, List.append_assoc] at hbytes
      obtain ⟨htext, hrest⟩ := Wire.counted_append_inj hbytes
      obtain ⟨hbit, hrest⟩ := truth_inj hrest
      exact ⟨htext ▸ hbit ▸ .refl _, hrest⟩
  case string.string.refl x y | identifier.identifier.refl x y | binary.binary.refl x y |
      member.member.refl x y =>
      obtain ⟨htext, hrest⟩ := Wire.counted_append_inj hbytes
      exact ⟨htext ▸ .refl _, hrest⟩
  all_goals exact ⟨.refl _, hbytes⟩

theorem same_of_payloadBytes {h k : Head} (hkind : h.kind = k.kind)
    (hbytes : h.payloadBytes = k.payloadBytes) : h.Same k :=
  (payloadBytes_append_inj hkind (congrArg (· ++ []) hbytes)).1

end Head

namespace Marked

variable {α : Type}

theorem trees_eq_map (ms : List (Marked α)) : trees ms = ms.map tree := by
  induction ms with
  | nil => rfl
  | cons m ms ih => rw [trees, ih, List.map_cons]

theorem tree_eq (m : Marked α) : m.tree = .node m.head (m.children.map tree) := by
  cases m with
  | node v h ms => rw [tree, trees_eq_map, head, children]

theorem complete_tree (m : Marked α) : m.tree.Complete := by
  refine @Marked.rec α (fun m => m.tree.Complete) (fun ms => ∀ m ∈ ms, m.tree.Complete)
    ?_ ?_ ?_ m
  · intro v h ms hms
    rw [tree_eq]
    refine .node fun c hc => ?_
    obtain ⟨m, hm, rfl⟩ := List.mem_map.mp hc
    exact hms m hm
  · intro m hm
    cases hm
  · intro m ms hm hms e he
    rcases List.mem_cons.mp he with rfl | he
    · exact hm
    · exact hms e he

end Marked

namespace Tree

variable {α : Type}

mutual

/-- The value of a tree, when a node's value is made of its head and its children's values. -/
def fold (empty : α) (combine : Head → List α → α) : Tree → α
  | absent => empty
  | node h cs => combine h (foldAll empty combine cs)

def foldAll (empty : α) (combine : Head → List α → α) : List Tree → List α
  | [] => []
  | t :: ts => fold empty combine t :: foldAll empty combine ts

end

theorem foldAll_eq_map (empty : α) (combine : Head → List α → α) (cs : List Tree) :
    foldAll empty combine cs = cs.map (fold empty combine) := by
  induction cs with
  | nil => rfl
  | cons c cs ih => rw [foldAll, ih, List.map_cons]

theorem fold_node (empty : α) (combine : Head → List α → α) (h : Head) (cs : List Tree) :
    fold empty combine (.node h cs) = combine h (cs.map (fold empty combine)) := by
  rw [fold, foldAll_eq_map]

theorem Same.fold {t u : Tree} (htu : t.Same u) (empty : α) {combine : Head → List α → α}
    (hcombine : ∀ h k vs, h.Same k → combine h vs = combine k vs) :
    t.fold empty combine = u.fold empty combine := by
  induction t generalizing u with
  | absent =>
      cases htu with
      | absent => rfl
  | node h cs ih =>
      cases htu with
      | @node _ k _ ds hhead hcs =>
          rw [fold_node, fold_node, map_eq_of_forall₂ hcs fun c hc d => ih c hc,
            hcombine h k _ hhead]

theorem same_fold {f : Head → Head} (hf : ∀ h, (f h).Same h) (t : Tree) :
    (t.fold absent fun h cs => node (f h) cs).Same t := by
  induction t with
  | absent => exact .absent
  | node h cs ih =>
      rw [fold_node]
      exact .node (hf h) (List.forall₂_map_left_iff.mpr (List.forall₂_same.mpr ih))

theorem markAll_eq_ok {combine : Head → List α → α} {operation : Operation} {limit : Int}
    {depth : Nat} {cs : List Tree} {ms : List (Marked α)} (empty : α)
    (hcs : ∀ c ∈ cs, ∀ m, markAt combine operation limit depth c = .ok m →
      m.tree = c ∧ m.value = c.fold empty combine)
    (h : markAll combine operation limit depth cs = .ok ms) :
    Marked.trees ms = cs ∧ ms.map Marked.value = cs.map (Tree.fold empty combine) := by
  induction cs generalizing ms with
  | nil =>
      cases h
      exact ⟨rfl, rfl⟩
  | cons c cs ih =>
      obtain ⟨m, hm, h⟩ := bind_eq_ok_iff.mp h
      obtain ⟨ms', hms, h⟩ := bind_eq_ok_iff.mp h
      cases h
      obtain ⟨htree, hvalue⟩ := hcs c List.mem_cons_self m hm
      obtain ⟨htrees, hvalues⟩ := ih (fun e he => hcs e (List.mem_cons_of_mem c he)) hms
      exact ⟨by rw [Marked.trees, htree, htrees],
        by rw [List.map_cons, List.map_cons, hvalue, hvalues]⟩

/-- A pass gives back the tree, with the value of the root on top. -/
theorem markAt_eq_ok {combine : Head → List α → α} {operation : Operation} {limit : Int}
    {depth : Nat} {t : Tree} {m : Marked α} (empty : α)
    (h : markAt combine operation limit depth t = .ok m) :
    m.tree = t ∧ m.value = t.fold empty combine := by
  induction t generalizing depth m with
  | absent => simp [markAt] at h
  | node l cs ih =>
      rw [markAt, check_bind_eq_ok_iff, check_bind_eq_ok_iff] at h
      obtain ⟨-, -, h⟩ := h
      obtain ⟨ms, hms, h⟩ := bind_eq_ok_iff.mp h
      cases h
      obtain ⟨htrees, hvalues⟩ := markAll_eq_ok empty (fun c hc m hm => ih c hc hm) hms
      exact ⟨by rw [Marked.tree, htrees], by rw [Marked.value, hvalues, fold_node]⟩

theorem markAll_succeeds {combine : Head → List α → α} {operation : Operation} {limit : Int}
    {depth : Nat} {cs : List Tree}
    (h : ∀ c ∈ cs, ∃ m, markAt combine operation limit depth c = .ok m) :
    ∃ ms, markAll combine operation limit depth cs = .ok ms := by
  induction cs with
  | nil => exact ⟨[], rfl⟩
  | cons c cs ih =>
      obtain ⟨m, hm⟩ := h c List.mem_cons_self
      obtain ⟨ms, hms⟩ := ih fun e he => h e (List.mem_cons_of_mem c he)
      exact ⟨m :: ms, by rw [markAll, hm, hms]; rfl⟩

theorem markAt_succeeds {combine : Head → List α → α} {operation : Operation} {limit : Int}
    {depth : Nat} {t : Tree} (ht : validateAt limit depth t = .ok ()) :
    ∃ m, markAt combine operation limit depth t = .ok m := by
  induction t generalizing depth with
  | absent => exact absurd ht not_validateAt_absent
  | node h cs ih =>
      obtain ⟨hdepth, hcheck, hcs⟩ := validateAt_node_iff.mp ht
      obtain ⟨ms, hms⟩ := markAll_succeeds fun c hc => ih c hc (hcs c hc)
      exact ⟨_, by rw [markAt, checkDepth_eq_ok_iff.mpr hdepth, hcheck, hms]; rfl⟩

end Tree

end Arbor
