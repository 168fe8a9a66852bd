import Arbor.Digest.Basic
import Arbor.Proofs.Tree.Merkle
import Arbor.Proofs.Tree.Order

/-! Trees with one digest are the same unless the bytes of two of their nodes collide. -/
namespace Arbor

namespace Bytes

theorem ofString_inj {s t : String} (h : ofString s = ofString t) : s = t := by
  unfold ofString at h
  exact String.toByteArray_inj.mp (ByteArray.ext (Array.toList_inj.mp h))

theorem hexDigit_inj {m n : Nat} (hm : m < 16) (hn : n < 16) (h : hexDigit m = hexDigit n) :
    m = n := by
  have hall : ∀ m < 16, ∀ n < 16, hexDigit m = hexDigit n → m = n := by decide
  exact hall m hm n hn h

theorem toHex_length (b : Bytes) : (toHex b).length = 2 * b.length := by
  induction b with
  | nil => rfl
  | cons x b ih =>
      rw [toHex, List.flatMap_cons, List.length_append, ← toHex, ih]
      simp only [List.length_cons, List.length_nil]
      omega

theorem toHex_inj {a b : Bytes} (h : toHex a = toHex b) : a = b := by
  induction a generalizing b with
  | nil =>
      cases b with
      | nil => rfl
      | cons y b => simp [toHex] at h
  | cons x a ih =>
      cases b with
      | nil => simp [toHex] at h
      | cons y b =>
          simp only [toHex, List.flatMap_cons, List.cons_append, List.nil_append,
            List.cons.injEq] at h
          obtain ⟨hhigh, hlow, hrest⟩ := h
          have hx := x.toNat_lt
          have hy := y.toNat_lt
          have hhigh := hexDigit_inj (by omega) (by omega) hhigh
          have hlow := hexDigit_inj (by omega) (by omega) hlow
          have hxy : x = y := UInt8.toNat_inj.mp (by omega)
          rw [hxy, ih hrest]

end Bytes

theorem Kind.name_inj {k l : Kind} (h : k.name = l.name) : k = l := by
  revert h
  cases k <;> cases l <;> simp [name]

theorem flatten_inj {n : Nat} (hn : 0 < n) {ws vs : List Bytes} (hws : ∀ w ∈ ws, w.length = n)
    (hvs : ∀ v ∈ vs, v.length = n) (h : ws.flatten = vs.flatten) : ws = vs := by
  have hwl : ws.map List.length = List.replicate ws.length n := by
    rw [List.eq_replicate_iff]
    simpa using hws
  have hvl : vs.map List.length = List.replicate vs.length n := by
    rw [List.eq_replicate_iff]
    simpa using hvs
  have hlength : ws.length * n = vs.length * n := by
    have := congrArg List.length h
    rwa [List.length_flatten, List.length_flatten, hwl, hvl, List.sum_replicate_nat,
      List.sum_replicate_nat] at this
  rw [List.eq_iff_flatten_eq, hwl, hvl, Nat.eq_of_mul_eq_mul_right hn hlength]
  exact ⟨h, rfl⟩

/-- The bytes of a node determine the node and the digests of its children. -/
theorem Head.digestInput_inj {h k : Head} {ws vs : List Bytes} (hws : ∀ w ∈ ws, w.length = 64)
    (hvs : ∀ v ∈ vs, v.length = 64) (hinput : h.digestInput ws = k.digestInput vs) :
    h.Same k ∧ ws = vs := by
  simp only [Head.digestInput, List.append_assoc] at hinput
  obtain ⟨hname, hrest⟩ := Wire.counted_append_inj hinput
  have hkind := Kind.name_inj (Bytes.ofString_inj hname)
  obtain ⟨hsame, hchildren⟩ := Head.payloadBytes_append_inj hkind hrest
  exact ⟨hsame, flatten_inj (by decide) hws hvs hchildren⟩

theorem Head.Same.digestInput {h k : Head} (hk : h.Same k) (ws : List Bytes) :
    h.digestInput ws = k.digestInput ws := by
  simp only [Head.digestInput, hk.kind, hk.payloadBytes]

def Merkle.digest (hash : Bytes → Bytes) (hsize : ∀ b, (hash b).length = 32) : Merkle Bytes where
  empty := []
  hash b := Bytes.toHex (hash b)
  input := Head.digestInput
  input_inj := by
    intro h k bs cs hinput
    have hwords : ∀ ms : List Bytes, ∀ w ∈ ms.map fun b => Bytes.toHex (hash b), w.length = 64 := by
      intro ms w hw
      obtain ⟨m, -, rfl⟩ := List.mem_map.mp hw
      rw [Bytes.toHex_length, hsize]
    exact Head.digestInput_inj (hwords bs) (hwords cs) hinput

namespace Tree

def hexDigest (hash : Bytes → Bytes) (t : Tree) : Bytes :=
  t.fold [] fun h cs => Bytes.toHex (hash (h.digestInput cs))

/-- The bytes whose hash is the digest of a node: the name of its kind after its length, its
payload and the digests of its children. -/
def digested (hash : Bytes → Bytes) : Tree → Bytes
  | absent => []
  | node h cs => h.digestInput (cs.map (hexDigest hash))

/-- Nodes of two trees whose digested bytes differ and have one hash. -/
def Collision (hash : Bytes → Bytes) (a b : Tree) : Prop :=
  ∃ x ∈ a.nodes, ∃ y ∈ b.nodes, x.digested hash ≠ y.digested hash ∧
    hash (x.digested hash) = hash (y.digested hash)

theorem hexDigest_node (hash : Bytes → Bytes) (h : Head) (cs : List Tree) :
    hexDigest hash (.node h cs) = Bytes.toHex (hash (digested hash (.node h cs))) := by
  rw [hexDigest, fold_node]
  rfl

theorem hexDigest_length {hash : Bytes → Bytes} (hsize : ∀ b, (hash b).length = 32) {t : Tree}
    (ht : t.Complete) : (t.hexDigest hash).length = 64 := by
  cases ht with
  | node hcs => rw [hexDigest_node, Bytes.toHex_length, hsize]

theorem Same.hexDigest {t u : Tree} (h : t.Same u) (hash : Bytes → Bytes) :
    t.hexDigest hash = u.hexDigest hash :=
  h.fold [] fun h k ws hk => by rw [hk.digestInput ws]

theorem digestWith_eq {hash : Bytes → Bytes} {limit : Int} {t : Tree}
    (ht : t.validate limit = .ok ()) :
    t.digestWith hash limit = .ok (Digest.write (t.hexDigest hash)) := by
  obtain ⟨m, hm⟩ := markAt_succeeds ht
  rw [digestWith, digestsWith, hm, hexDigest, ← (markAt_eq_ok [] hm).2]
  rfl

section Digest

variable (hash : Bytes → Bytes) (hsize : ∀ b, (hash b).length = 32)

theorem digest_value (t : Tree) : (Merkle.digest hash hsize).value t = t.hexDigest hash := rfl

theorem digest_bytes (t : Tree) : (Merkle.digest hash hsize).bytes t = t.digested hash := by
  cases t with
  | absent => rfl
  | node h cs => rfl

theorem collision_of_digest {a b : Tree} (h : (Merkle.digest hash hsize).Collision a b) :
    Collision hash a b := by
  obtain ⟨x, hx, y, hy, hbytes, hhash⟩ := h
  rw [digest_bytes, digest_bytes] at hbytes hhash
  exact ⟨x, hx, y, hy, hbytes, Bytes.toHex_inj hhash⟩

end Digest

/-- Trees with one digest are the same, or two of their nodes collide. -/
theorem same_or_collision {hash : Bytes → Bytes} (hsize : ∀ b, (hash b).length = 32) {t u : Tree}
    (ht : t.Complete) (hu : u.Complete) (h : t.hexDigest hash = u.hexDigest hash) :
    t.Same u ∨ Collision hash t u := by
  rw [← digest_value hash hsize, ← digest_value hash hsize] at h
  rcases Merkle.same_or_collision ht hu h with hsame | hcollision
  · exact .inl hsame
  · exact .inr (collision_of_digest hash hsize hcollision)

/-- Digests under any hash function of thirty-two bytes agree with the comparison of valid trees:
trees that compare as zero have one digest, and trees with one digest compare as zero unless two of
their nodes collide. -/
theorem digest_agrees_with_compare {hash : Bytes → Bytes} (hsize : ∀ b, (hash b).length = 32)
    {limit : Int} {a b : Tree} (ha : a.validate limit = .ok ()) (hb : b.validate limit = .ok ()) :
    ∃ x y : Bytes, a.digestWith hash limit = .ok x ∧ b.digestWith hash limit = .ok y ∧
      (a.compare limit b = .ok 0 → x = y) ∧
      (x = y → a.compare limit b = .ok 0 ∨ Collision hash a b) := by
  have hca := complete_of_validateAt ha
  have hcb := complete_of_validateAt hb
  refine ⟨_, _, digestWith_eq ha, digestWith_eq hb, ?_, ?_⟩
  · intro hzero
    rw [(same_of_compare hca hcb hzero).hexDigest]
  · intro hdigest
    have hhex := List.append_cancel_left hdigest
    rcases same_or_collision hsize hca hcb hhex with hsame | hcollision
    · exact .inl (compare_of_same hb hsame)
    · exact .inr hcollision

end Tree

theorem Sha256.hash_length (b : Bytes) : (Sha256.hash b).length = 32 := rfl

/-- Both zeros have one digest under SHA-256. -/
theorem Tree.digest_agrees_with_compare_zeros :
    let minus := node .expression [node (.float ⟨0x8000000000000000⟩) []]
    let plus := node .expression [node (.float ⟨0⟩) []]
    (minus.validate 1 = .ok () ∧ plus.validate 1 = .ok ()) ∧
      ∃ d, minus.digest 1 = .ok d ∧ plus.digest 1 = .ok d := by
  intro minus plus
  have hminus : minus.validate 1 = .ok () := rfl
  have hplus : plus.validate 1 = .ok () := rfl
  have hzero : minus.compare 1 plus = .ok 0 := rfl
  obtain ⟨x, y, hx, hy, hequal, -⟩ :=
    digest_agrees_with_compare Sha256.hash_length hminus hplus
  exact ⟨⟨hminus, hplus⟩, x, hx, hequal hzero ▸ hy⟩

end Arbor
