import Arbor.Proofs.Diff.Replay
import Arbor.Proofs.Digest.Locality

/-! Hashes save comparisons: trees with one hash are the same unless two nodes collide. -/
namespace Arbor

namespace Tree

theorem hash_eq {hasher : Hasher} {limit : Int} {t : Tree} (ht : t.validate limit = .ok ()) :
    t.hash hasher limit = .ok ((Merkle.hashes hasher).value t) := by
  obtain ⟨m, hm⟩ : ∃ m, t.hashes hasher limit = .ok m := markAt_succeeds ht
  rw [hash, hm]
  exact congrArg Except.ok (markAt_eq_ok 0 hm).2

/-- Hashes under any function on byte strings agree with the comparison of valid trees: trees that
compare as zero have one hash, and trees with one hash compare as zero unless two of their nodes
collide. Whatever collides, the marked nodes of the two trees are found to be the same exactly if
they compare as zero. -/
theorem hash_agrees_with_compare (hasher : Hasher) {limit : Int} {a b : Tree}
    (ha : a.validate limit = .ok ()) (hb : b.validate limit = .ok ()) :
    (∃ x y, a.hash hasher limit = .ok x ∧ b.hash hasher limit = .ok y ∧
      (a.compare limit b = .ok 0 → x = y) ∧
      (¬ (Merkle.hashes hasher).Collision a b → x = y → a.compare limit b = .ok 0)) ∧
    ∃ f t, a.hashes hasher limit = .ok f ∧ b.hashes hasher limit = .ok t ∧
      ∀ p q x y, f.at? p = some x → t.at? q = some y →
        (x.same limit y = true ↔ x.tree.compare limit y.tree = .ok 0) := by
  have hca := complete_of_validateAt ha
  have hcb := complete_of_validateAt hb
  constructor
  · refine ⟨_, _, hash_eq ha, hash_eq hb, ?_, ?_⟩
    · intro hzero
      exact hash_congr (same_of_compare hca hcb hzero)
    · intro hcollision hvalue
      rcases Merkle.same_or_collision hca hcb hvalue with hsame | hfound
      · exact compare_of_same hb hsame
      · exact absurd hfound hcollision
  · obtain ⟨f, hf⟩ : ∃ f, a.hashes hasher limit = .ok f := markAt_succeeds ha
    obtain ⟨t, ht⟩ : ∃ t, b.hashes hasher limit = .ok t := markAt_succeeds hb
    refine ⟨f, t, hf, ht, ?_⟩
    intro p q x y hx hy
    rw [Marked.same_eq_true_iff]
    constructor
    · exact fun hboth => hboth.2
    · intro hzero
      refine ⟨?_, hzero⟩
      rw [value_of_markAt 0 hf hx, value_of_markAt 0 ht hy]
      exact hash_congr (same_of_compare x.complete_tree y.complete_tree hzero)

/-- Conditionals with both zeros as condition have one hash. A false branch makes another of it, for
the Fowler, Noll and Vo hash does not collide on these trees. -/
theorem hash_agrees_with_compare_branch :
    let zero (bits : UInt64) := node (.float ⟨bits⟩) []
    let plus := node .ifElse [zero 0, node .block []]
    let minus := node .ifElse [zero 0x8000000000000000, node .block []]
    let branch := node .ifElse [zero 0, node .block [], node .block []]
    (plus.validate 1 = .ok () ∧ minus.validate 1 = .ok () ∧ branch.validate 1 = .ok () ∧
        ¬ (Merkle.hashes fnv1a).Collision plus branch) ∧
      plus.hash fnv1a 1 = minus.hash fnv1a 1 ∧ plus.hash fnv1a 1 ≠ branch.hash fnv1a 1 := by
  intro zero plus minus branch
  have hplus : plus.validate 1 = .ok () := rfl
  have hminus : minus.validate 1 = .ok () := rfl
  have hbranch : branch.validate 1 = .ok () := rfl
  have hcollision : ¬ (Merkle.hashes fnv1a).Collision plus branch := by
    rintro ⟨x, hx, y, hy, hbytes, hhash⟩
    have hxs : x ∈ [plus, zero 0, node .block []] := by
      simpa [plus, zero, mem_nodes_node] using hx
    have hys : y ∈ [branch, zero 0, node .block []] := by
      simpa [branch, zero, mem_nodes_node] using hy
    have hall : ∀ x ∈ [plus, zero 0, node .block []], ∀ y ∈ [branch, zero 0, node .block []],
        fnv1a ((Merkle.hashes fnv1a).bytes x) = fnv1a ((Merkle.hashes fnv1a).bytes y) →
          (Merkle.hashes fnv1a).bytes x = (Merkle.hashes fnv1a).bytes y := by decide +kernel
    exact hbytes (hall x hxs y hys hhash)
  obtain ⟨⟨x, y, hx, hy, hequal, -⟩, -⟩ := hash_agrees_with_compare fnv1a hplus hminus
  obtain ⟨⟨x', z, hx', hz, -, hdiffer⟩, -⟩ := hash_agrees_with_compare fnv1a hplus hbranch
  refine ⟨⟨hplus, hminus, hbranch, hcollision⟩, ?_, ?_⟩
  · rw [hx, hy, hequal (by decide)]
  · rw [hx', hz]
    intro hhash
    have hcompare : plus.compare 1 branch ≠ .ok 0 := by decide
    exact hcompare (hdiffer hcollision (Except.ok.inj hhash))

end Tree

end Arbor
