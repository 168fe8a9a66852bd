import Arbor.Proofs.Codec.Proto
import Arbor.Proofs.Digest.Collision
import Arbor.Proofs.Tree.Verdict
import Arbor.Proofs.Zstd.Frame
import Arbor.Store.Basic

/-! An entry is written for valid trees only, and read by any decoder. -/
namespace Arbor

theorem Bytes.isHex_toHex (b : Bytes) : Digest.isHex (Bytes.toHex b) = true := by
  have hdigit : ∀ n < 16,
      (isDigit (hexDigit n) || (97 ≤ hexDigit n && hexDigit n ≤ 102)) = true := by decide
  rw [Digest.isHex, List.all_eq_true]
  intro y hy
  obtain ⟨x, -, hx⟩ := List.mem_flatMap.mp hy
  have hlt := x.toNat_lt
  rcases List.mem_pair.mp hx with rfl | rfl
  · exact hdigit _ (by omega)
  · exact hdigit _ (by omega)

/-- Digests are the hashes of known algorithms, in so many hexadecimal digits as these have. -/
theorem Digest.validate_eq_ok_iff {d : Bytes} : validate d = .ok () ↔
    ∃ algorithm encoded, Bytes.cut 58 d = (algorithm, some encoded) ∧
      hexLength? algorithm = some encoded.length ∧ isHex encoded = true := by
  have hlong : ∀ {algorithm length}, hexLength? algorithm = some length →
      algorithm ≠ [] ∧ 0 < length := by
    intro algorithm length h
    unfold hexLength? at h
    split at h
    next heq => cases h; exact ⟨by rw [heq]; decide, by decide⟩
    split at h
    next heq => cases h; exact ⟨by rw [heq]; decide, by decide⟩
    split at h
    next heq => cases h; exact ⟨by rw [heq]; decide, by decide⟩
    · cases h
  constructor
  · intro h
    unfold validate at h
    split at h
    next => cases h
    next algorithm encoded hcut =>
      refine ⟨algorithm, encoded, hcut, ?_⟩
      grind
  · rintro ⟨algorithm, encoded, hcut, hlength, hhex⟩
    obtain ⟨halgorithm, hpos⟩ := hlong hlength
    have hparts : ¬ (algorithm = [] ∨ encoded = []) := by
      rintro (rfl | rfl)
      · exact halgorithm rfl
      · exact Nat.lt_irrefl 0 hpos
    simp only [validate, hcut, if_neg hparts, hlength, ne_eq, not_true_eq_false, if_false, hhex,
      if_true]

theorem Digest.validate_write {encoded : Bytes} (hlength : encoded.length = 64)
    (hhex : isHex encoded = true) : validate (write encoded) = .ok () :=
  validate_eq_ok_iff.mpr ⟨Bytes.ofString "sha256", encoded, rfl, by rw [hlength]; rfl, hhex⟩

theorem Tree.validate_digestWith {hash : Bytes → Bytes} (hsize : ∀ b, (hash b).length = 32)
    {limit : Int} {t : Tree} {d : Bytes} (ht : t.validate limit = .ok ())
    (hd : t.digestWith hash limit = .ok d) : Digest.validate d = .ok () := by
  have hcomplete := complete_of_validateAt ht
  rw [digestWith_eq ht] at hd
  obtain rfl := Except.ok.inj hd
  refine Digest.validate_write (hexDigest_length hsize hcomplete) ?_
  cases hcomplete with
  | node hcs =>
      rw [hexDigest_node]
      exact Bytes.isHex_toHex _

namespace Store

variable {z : Zstd.Coder} {limit : Int} {t : Tree} {d data : Bytes}

theorem entryOf_eq_ok_iff : entryOf z limit t = .ok (d, data) ↔
    t.validate limit = .ok () ∧ t.digest limit = .ok d ∧
      data = z.compress (Codec.writeProto t) := by
  have hwrite : Codec.writeWith z limit writing t = .ok data ↔
      t.validate limit = .ok () ∧ data = z.compress (Codec.writeProto t) := by
    rw [writing, Tree.writeWith_proto_eq, mapError_eq_ok_iff]
    cases t.validate limit with
    | error f => simp [Except.map]
    | ok u => simp [Except.map, eq_comm]
  rw [entryOf, bind_eq_ok_iff]
  constructor
  · rintro ⟨d', hd, h⟩
    obtain ⟨data', hdata, h⟩ := bind_eq_ok_iff.mp h
    obtain ⟨rfl, rfl⟩ := Prod.mk.inj (Except.ok.inj h)
    obtain ⟨ht, hbytes⟩ := hwrite.mp (mapError_eq_ok_iff.mp hdata)
    exact ⟨ht, mapError_eq_ok_iff.mp hd, hbytes⟩
  · rintro ⟨ht, hd, hbytes⟩
    refine ⟨d, mapError_eq_ok_iff.mpr hd, ?_⟩
    rw [hwrite.mpr ⟨ht, hbytes⟩]
    rfl

theorem exists_entryOf (ht : t.validate limit = .ok ()) :
    ∃ d data, entryOf z limit t = .ok (d, data) :=
  ⟨_, _, entryOf_eq_ok_iff.mpr ⟨ht, Tree.digestWith_eq ht, rfl⟩⟩

/-- The message in an entry is read as it was written. -/
theorem read_entry_eq (hz : z.RoundTrips) (hsize : (Codec.writeProto t).length < 2 ^ 64) :
    Codec.readWith z limit reading (z.compress (Codec.writeProto t)) =
      Codec.readProto limit (Codec.writeProto t) := by
  rw [Codec.readWith, Codec.unwrapWith, reading, Bool.true_or, if_pos rfl, hz _ hsize]
  rfl

/-- A lookup accepts what was written, and gives the tree with plus zeros. -/
theorem treeOf_entry (hz : z.RoundTrips) (hentry : entryOf z limit t = .ok (d, data))
    (hsize : (Codec.writeProto t).length < 2 ^ 64) : treeOf z limit d data = .ok t.plusZero := by
  obtain ⟨ht, hd, rfl⟩ := entryOf_eq_ok_iff.mp hentry
  have hplus : t.plusZero.validate limit = .ok () := t.plusZero_same.validateAt ht
  have hdigest : t.plusZero.digest limit = .ok d := by
    rw [← hd, Tree.digest, Tree.digest, Tree.digestWith_eq hplus, Tree.digestWith_eq ht,
      t.plusZero_same.hexDigest]
  have hverify : t.plusZero.verify limit d = .ok true := by
    rw [Tree.verify, Tree.validate_digestWith Sha256.hash_length ht hd, hdigest]
    exact congrArg Except.ok (decide_eq_true rfl)
  rw [treeOf, read_entry_eq hz hsize, Codec.readProto_writeProto ht hsize]
  simp only [hverify]

end Store

end Arbor
