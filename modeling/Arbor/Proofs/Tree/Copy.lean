import Arbor.Proofs.Tree.Verdict
import Arbor.Tree.Outline

/-! A visitor whose handlers return their input gives the tree itself, down to the bits. -/
namespace Arbor.Tree

variable {limit : Int} {t : Tree}

theorem hash_succeeds (hasher : Hasher) (ht : t.validate limit = .ok ()) :
    ∃ v, t.hash hasher limit = .ok v := by
  obtain ⟨m, hm⟩ := markAt_succeeds ht
  exact ⟨m.value, by rw [hash, hashes, hm]; rfl⟩

theorem digest_succeeds (ht : t.validate limit = .ok ()) : ∃ d, t.digest limit = .ok d := by
  obtain ⟨m, hm⟩ := markAt_succeeds ht
  exact ⟨Digest.write m.value, by rw [digest, digestWith, digestsWith, hm]; rfl⟩

theorem write_proto_succeeds (indent : Int) (compress : Bool) (ht : t.validate limit = .ok ()) :
    ∃ b, Codec.write limit { format := .ok .proto, indent, compress } t = .ok b := by
  rw [write_proto_eq, ht]
  exact ⟨_, rfl⟩

/-- All ways to copy a valid tree give the tree itself: kinds, attributes to the bit, and children
in order, with nothing in place of a false branch that is not there. So the copy compares as equal
with it and has its hash, its digest, its outline and its binary form. -/
theorem copies_identical (hasher : Hasher) (limit indent : Int) (compress : Bool) {t : Tree}
    (ht : t.validate limit = .ok ()) :
    ∃ d, Dispatcher.ofTable .identity = .ok d ∧
      ∀ copy ∈ [t.clone limit, (Visitor.identity.walk limit t).result, (d.visit limit t).result],
        ∃ u, copy = .ok u ∧ u = t ∧ t.compare limit u = .ok 0 ∧
          (∃ v, t.hash hasher limit = .ok v ∧ u.hash hasher limit = .ok v) ∧
          (∃ v, t.digest limit = .ok v ∧ u.digest limit = .ok v) ∧ u.outline = t.outline ∧
          ∃ b, Codec.write limit { format := .ok .proto, indent, compress } t = .ok b ∧
            Codec.write limit { format := .ok .proto, indent, compress } u = .ok b := by
  obtain ⟨d, htable, hvisit⟩ := visit_identity limit t
  have hwalk := walk_identity limit t
  rw [ht] at hvisit hwalk
  refine ⟨d, htable, ?_⟩
  intro copy hcopy
  have hself : copy = .ok t := by
    simp only [List.mem_cons, List.not_mem_nil, or_false] at hcopy
    rcases hcopy with rfl | rfl | rfl
    · exact hwalk
    · exact hwalk
    · exact hvisit
  obtain ⟨v, hv⟩ := hash_succeeds hasher ht
  obtain ⟨e, he⟩ := digest_succeeds ht
  obtain ⟨b, hb⟩ := write_proto_succeeds indent compress ht
  exact ⟨t, hself, rfl, compare_of_same ht (.refl t), ⟨v, hv, hv⟩, ⟨e, he, he⟩, rfl, b, hb, hb⟩

/-- A conditional without a false branch, over a NaN with bits of its own, a zero below a trailing
operator with a minus sign, and a call without arguments. -/
theorem copies_identical_bits :
    let nan := node (.float ⟨0xFFF0000000000123⟩) []
    let zero := node (.unary [43] true) [node (.float ⟨0x8000000000000000⟩) []]
    let call := node .expression [node .invocation [zero]]
    let t := Tree.ifElse nan (node .block [call, node .block []]) .absent
    t.validate 9 = .ok () ∧ t.clone 9 = .ok t ∧
      t.clone 9 = .ok (node .ifElse [nan, node .block [call, node .block []]]) := by
  intro nan zero call t
  have ht : t.validate 9 = .ok () := rfl
  obtain ⟨d, -, hcopies⟩ := copies_identical fnv1a 9 0 false ht
  obtain ⟨u, hclone, rfl, -⟩ := hcopies (t.clone 9) List.mem_cons_self
  exact ⟨ht, hclone, hclone⟩

end Arbor.Tree
