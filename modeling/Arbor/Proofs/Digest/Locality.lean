import Arbor.Proofs.Digest.Collision
import Arbor.Proofs.Tree.Subtree
import Arbor.Tree.Hash

/-! An edit changes the digests along its path and no digest beside it. -/
namespace Arbor

theorem flatMap_word_inj {vs ws : List UInt64}
    (h : (vs.flatMap fun v => Wire.littleEndian 8 v.toNat) =
      ws.flatMap fun w => Wire.littleEndian 8 w.toNat) : vs = ws := by
  have hlength : ∀ us : List UInt64, ∀ b ∈ us.map fun u => Wire.littleEndian 8 u.toNat,
      b.length = 8 := by
    intro us b hb
    obtain ⟨u, -, rfl⟩ := List.mem_map.mp hb
    exact Wire.littleEndian_length 8 u.toNat
  rw [List.flatMap_def, List.flatMap_def] at h
  refine List.map_injective_iff.mpr ?_ (flatten_inj (by decide) (hlength vs) (hlength ws) h)
  intro v w hvw
  exact UInt64.toNat_inj.mp (Wire.littleEndian_inj (Head.lt_word v) (Head.lt_word w) hvw)

theorem Kind.ordinal_lt (k : Kind) : k.ordinal < 256 ^ 2 := by
  cases k <;> decide

/-- The bytes hashed for a node determine the node and the hashes of its children. -/
theorem Head.hashInput_inj {h k : Head} {vs ws : List UInt64}
    (hinput : h.hashInput vs = k.hashInput ws) : h.Same k ∧ vs = ws := by
  simp only [Head.hashInput, List.append_assoc] at hinput
  obtain ⟨hordinal, hrest⟩ := List.append_inj hinput (by simp only [Wire.littleEndian_length])
  have hordinal := Wire.littleEndian_inj h.kind.ordinal_lt k.kind.ordinal_lt hordinal
  obtain ⟨hsame, hchildren⟩ := Head.payloadBytes_append_inj (Kind.ordinal_inj hordinal) hrest
  exact ⟨hsame, flatMap_word_inj hchildren⟩

def Merkle.hashes (hasher : Hasher) : Merkle UInt64 where
  empty := 0
  hash := hasher
  input := Head.hashInput
  input_inj hinput := Head.hashInput_inj hinput

/-- After a change at `p`, the nodes of the old tree beside it keep their values. -/
def Marked.SameBeside {α : Type} (p : Path) (t : Tree) (m n : Marked α) : Prop :=
  ∀ q, (t.at? q).isSome → ¬ q <+: p → ¬ p <+: q →
    ∃ v, m.valueAt? q = some v ∧ n.valueAt? q = some v

/-- After a change at `p`, the nodes from the root to `p` have other values. -/
def Marked.DifferentAlong {α : Type} (p : Path) (m n : Marked α) : Prop :=
  ∀ q, q <+: p → ∃ v w, m.valueAt? q = some v ∧ n.valueAt? q = some w ∧ v ≠ w

namespace Merkle

variable {α : Type} {s : Merkle α} {operation : Operation} {limit : Int} {t old new : Tree}
  {p : Path} {m n : Marked α}

theorem sameBeside (hm : t.markAt s.combine operation limit 0 = .ok m)
    (hn : (t.replaceAt p new).markAt s.combine operation limit 0 = .ok n) :
    m.SameBeside p t n := by
  intro q hq hqp hpq
  obtain ⟨x, hx⟩ := Option.isSome_iff_exists.mp hq
  refine ⟨s.value x, ?_, ?_⟩
  · rw [Tree.valueAt?_of_markAt s.empty hm, hx]
    rfl
  · rw [Tree.valueAt?_of_markAt s.empty hn, Tree.at?_replaceAt_of_apart hqp hpq, hx]
    rfl

/-- A subtree on the way to a replaced one is another tree afterwards. -/
theorem not_same_replaceAt {x : Tree} {r : Path} (hold : x.at? r = some old)
    (hdiffer : ¬ old.Same new) : ¬ x.Same (x.replaceAt r new) := by
  intro hsame
  obtain ⟨y, hy, hsame⟩ := hsame.at? hold
  rw [Option.some.inj (hy.symm.trans (Tree.at?_replaceAt_self hold))] at hsame
  exact hdiffer hsame

theorem differentAlong (ht : t.validate limit = .ok ()) (hold : t.at? p = some old)
    (hu : (t.replaceAt p new).validate limit = .ok ()) (hdiffer : ¬ old.Same new)
    (hm : t.markAt s.combine operation limit 0 = .ok m)
    (hn : (t.replaceAt p new).markAt s.combine operation limit 0 = .ok n)
    (hcollision : ¬ s.Collision t (t.replaceAt p new)) : m.DifferentAlong p n := by
  rintro q ⟨r, rfl⟩
  rw [Tree.at?_append] at hold
  obtain ⟨x, hx, hold⟩ := Option.bind_eq_some_iff.mp hold
  have hy : (t.replaceAt (q ++ r) new).at? q = some (x.replaceAt r new) := by
    rw [Tree.at?_replaceAt_append, hx]
    rfl
  have hcx := Tree.complete_of_validateAt (Tree.validateAt_of_at? ht hx)
  have hcy := Tree.complete_of_validateAt (Tree.validateAt_of_at? hu hy)
  refine ⟨s.value x, s.value (x.replaceAt r new), ?_, ?_, ?_⟩
  · rw [Tree.valueAt?_of_markAt s.empty hm, hx]
    rfl
  · rw [Tree.valueAt?_of_markAt s.empty hn, hy]
    rfl
  · intro hvalue
    rcases same_or_collision hcx hcy hvalue with hsame | hfound
    · exact not_same_replaceAt hold hdiffer hsame
    · exact hcollision (hfound.mono (Tree.mem_nodes_of_at? hx) (Tree.mem_nodes_of_at? hy))

end Merkle

namespace Tree

/-- Changes show in a node and its ancestors only. In a valid tree the subtree at a path is replaced
by one that compares as different, and the result is valid. Then both trees have digests and hashes
at all nodes; those of the nodes beside the path stay, and those of the nodes on it, from the root to
the replaced one, change unless two nodes of the trees collide. -/
theorem digests_hashes_local {hash : Bytes → Bytes} (hsize : ∀ b, (hash b).length = 32)
    (hasher : Hasher) {limit : Int} {t old new : Tree} {p : Path} (ht : t.validate limit = .ok ())
    (hold : t.at? p = some old) (hu : (t.replaceAt p new).validate limit = .ok ())
    (hdiffer : old.compare limit new ≠ .ok 0) :
    ∃ ds ds' hs hs',
      t.digestsWith hash limit = .ok ds ∧ (t.replaceAt p new).digestsWith hash limit = .ok ds' ∧
      t.hashes hasher limit = .ok hs ∧ (t.replaceAt p new).hashes hasher limit = .ok hs' ∧
      ds.SameBeside p t ds' ∧ hs.SameBeside p t hs' ∧
      (¬ Collision hash t (t.replaceAt p new) → ds.DifferentAlong p ds') ∧
      (¬ (Merkle.hashes hasher).Collision t (t.replaceAt p new) → hs.DifferentAlong p hs') := by
  have hdiffer : ¬ old.Same new := by
    intro hsame
    have hnew := validateAt_of_at? hu (at?_replaceAt_self hold)
    exact hdiffer (compare_of_same (validate_of_validateAt hnew) hsame)
  obtain ⟨ds, hds⟩ : ∃ ds, t.digestsWith hash limit = .ok ds := markAt_succeeds ht
  obtain ⟨ds', hds'⟩ : ∃ ds', (t.replaceAt p new).digestsWith hash limit = .ok ds' :=
    markAt_succeeds hu
  obtain ⟨hs, hhs⟩ : ∃ hs, t.hashes hasher limit = .ok hs := markAt_succeeds ht
  obtain ⟨hs', hhs'⟩ : ∃ hs', (t.replaceAt p new).hashes hasher limit = .ok hs' :=
    markAt_succeeds hu
  refine ⟨ds, ds', hs, hs', hds, hds', hhs, hhs', ?_, ?_, ?_, ?_⟩
  · exact Merkle.sameBeside (s := Merkle.digest hash hsize) hds hds'
  · exact Merkle.sameBeside (s := Merkle.hashes hasher) hhs hhs'
  · intro hcollision
    refine Merkle.differentAlong (s := Merkle.digest hash hsize) ht hold hu hdiffer hds hds' ?_
    intro hfound
    exact hcollision (collision_of_digest hash hsize hfound)
  · exact Merkle.differentAlong (s := Merkle.hashes hasher) ht hold hu hdiffer hhs hhs'

/-- The left operand of a sum is renamed: the digest of the right one stays, that of the sum does
not. -/
theorem digests_hashes_local_operand :
    let leaf (name : UInt8) := node (.identifier [name]) []
    let t := node (.binary [0x2B]) [leaf 0x61, leaf 0x62]
    let u := node (.binary [0x2B]) [leaf 0x63, leaf 0x62]
    (t.validate 1 = .ok () ∧ t.at? [0] = some (leaf 0x61) ∧ t.replaceAt [0] (leaf 0x63) = u ∧
        u.validate 1 = .ok () ∧ (leaf 0x61).compare 1 (leaf 0x63) ≠ .ok 0 ∧
        ¬ Collision Sha256.hash t u) ∧
      ∃ ds ds', t.digests 1 = .ok ds ∧ u.digests 1 = .ok ds' ∧
        (∃ d, ds.valueAt? [1] = some d ∧ ds'.valueAt? [1] = some d) ∧
        ∃ d e, ds.valueAt? [] = some d ∧ ds'.valueAt? [] = some e ∧ d ≠ e := by
  intro leaf t u
  have ht : t.validate 1 = .ok () := rfl
  have hold : t.at? [0] = some (leaf 0x61) := rfl
  have hu : (t.replaceAt [0] (leaf 0x63)).validate 1 = .ok () := rfl
  have hdiffer : (leaf 0x61).compare 1 (leaf 0x63) ≠ .ok 0 := by decide
  have hcollision : ¬ Collision Sha256.hash t u := by
    rintro ⟨x, hx, y, hy, hbytes, hhash⟩
    have hxs : x ∈ [t, leaf 0x61, leaf 0x62] := by simpa [t, leaf, mem_nodes_node] using hx
    have hys : y ∈ [u, leaf 0x63, leaf 0x62] := by simpa [u, leaf, mem_nodes_node] using hy
    have hall : ∀ x ∈ [t, leaf 0x61, leaf 0x62], ∀ y ∈ [u, leaf 0x63, leaf 0x62],
        Sha256.hash (x.digested Sha256.hash) = Sha256.hash (y.digested Sha256.hash) →
          x.digested Sha256.hash = y.digested Sha256.hash := by decide +kernel
    exact hbytes (hall x hxs y hys hhash)
  obtain ⟨ds, ds', -, -, hds, hds', -, -, hbeside, -, halong, -⟩ :=
    digests_hashes_local Sha256.hash_length fnv1a ht hold hu hdiffer
  refine ⟨⟨ht, hold, rfl, hu, hdiffer, hcollision⟩, ds, ds', hds, hds', ?_, ?_⟩
  · exact hbeside [1] rfl (by decide) (by decide)
  · exact halong hcollision [] List.nil_prefix

end Tree

end Arbor
