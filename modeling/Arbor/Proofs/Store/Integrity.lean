import Arbor.Proofs.Codec.Acceptance
import Arbor.Proofs.Store.Entry
import Arbor.Proofs.Store.Outcome
import Arbor.Proofs.Store.Table

/-! Entries may be overwritten past the store at any time. -/
namespace Arbor.Store

/-- A tree is valid and has the digest. -/
def Addresses (limit : Int) (d : Bytes) (t : Tree) : Prop :=
  t.validate limit = .ok () ∧ t.digest limit = .ok d

/-- Trees under one digest compare as equal, even if their limits differ, or two of their nodes
collide. -/
theorem Addresses.compare_or_collision {limit limit' : Int} {d : Bytes} {t u : Tree}
    (ht : Addresses limit d t) (hu : Addresses limit' d u) :
    t.compare limit u = .ok 0 ∨ Tree.Collision Sha256.hash t u := by
  obtain ⟨htv, htd⟩ := ht
  obtain ⟨huv, hud⟩ := hu
  rw [Tree.digest, Tree.digestWith_eq htv] at htd
  rw [Tree.digest, Tree.digestWith_eq huv, ← htd] at hud
  have hhex := List.append_cancel_left (Except.ok.inj hud)
  rcases Tree.same_or_collision Sha256.hash_length (Tree.complete_of_validateAt htv)
    (Tree.complete_of_validateAt huv) hhex.symm with hsame | hcollision
  · exact .inl (Tree.compare_of_same (hsame.symm.validateAt htv) hsame)
  · exact .inr hcollision

theorem addresses_of_entryOf {z : Zstd.Coder} {limit : Int} {d data : Bytes} {t : Tree}
    (h : entryOf z limit t = .ok (d, data)) : Addresses limit d t := by
  obtain ⟨ht, hd, -⟩ := entryOf_eq_ok_iff.mp h
  exact ⟨ht, hd⟩

/-- What is read from an entry has the digest, whatever bytes the entry holds and whatever
decompression makes of them. -/
theorem addresses_of_treeOf {z : Zstd.Coder} {limit : Int} {d data : Bytes} {t : Tree}
    (h : treeOf z limit d data = .ok t) : Addresses limit d t := by
  rw [treeOf] at h
  split at h
  · cases h
  next u hread =>
    split at h
    · cases h
    next hverify =>
      cases h
      obtain ⟨-, hverify⟩ := check_bind_eq_ok_iff.mp hverify
      obtain ⟨found, hfound, hequal⟩ := bind_eq_ok_iff.mp hverify
      have hd : found = d := of_decide_eq_true (Except.ok.inj hequal)
      exact ⟨Codec.validate_of_readWith hread, hd ▸ mapError_eq_ok_iff.mp hfound⟩
    · cases h

theorem addresses_of_fetch {limit : Int} {d : Bytes} {s : Store} {t : Tree}
    (h : s.fetch limit d = .ok t) : Addresses limit d t := by
  rw [fetch] at h
  split at h
  · split at h
    · cases h
    · exact addresses_of_treeOf h
  · cases h

/-- What an answer says about the trees it names: a lookup gives a tree with its digest or fails,
and a put gives the digest of its tree or fails. -/
def Honest (limit : Int) : Request → Answer → Prop
  | .get d, a => (∃ t, a = .tree t ∧ Addresses limit d t) ∨ ∃ e, a = .failed e
  | .put t, a => (∃ d, a = .digest d ∧ Addresses limit d t) ∨ ∃ e, a = .failed e
  | _, _ => True

theorem Outcome.honest {limit : Int} {s after : Store} {r : Request} {a : Answer}
    (h : Outcome limit s r a after) : Honest limit r a := by
  cases h with
  | stored hopen hentry => exact .inl ⟨_, rfl, addresses_of_entryOf hentry⟩
  | lookup hdigest ha =>
      rw [ha]
      cases hfetch : s.fetch limit _ with
      | error e => exact .inr ⟨e, rfl⟩
      | ok t => exact .inl ⟨t, rfl, addresses_of_fetch hfetch⟩
  | failed he =>
      cases r with
      | put t => exact .inr ⟨_, rfl⟩
      | get d => exact .inr ⟨_, rfl⟩
      | _ => trivial
  | _ => trivial

/-- One step: no matter what the table holds, the answer is honest. -/
theorem honest_step (limit : Int) (r : Request) (s : Store) :
    Honest limit r (s.step limit r).1 :=
  (step_outcome limit s r).honest

/-- In a run of requests from a store on, one of them was answered in this way. -/
def Answered (s : Store) (rs : List (Int × Request)) (limit : Int) (r : Request) (a : Answer) :
    Prop :=
  ((limit, r), a) ∈ rs.zip (s.run rs).1

/-- A whole run, by induction over the requests; overwrites are among them. -/
theorem honest_run {s : Store} {rs : List (Int × Request)} {limit : Int} {r : Request}
    {a : Answer} (h : s.Answered rs limit r a) : Honest limit r a := by
  induction rs generalizing s with
  | nil => cases h
  | cons q rs ih =>
      obtain ⟨limit', q⟩ := q
      rw [Answered, run, List.zip_cons_cons, List.mem_cons] at h
      rcases h with heq | hrest
      · cases heq
        exact honest_step limit r s
      · exact ih hrest

/-- From a store on with any contents and any way to decompress them, over any requests with any
overwrites between them, a lookup fails or gives a valid tree with the digest that was asked for.
That tree compares as equal with every tree whose put returned the digest, and with every tree that
a lookup of the digest gives in whatever other run, unless the hash function collides on nodes of
the two. -/
theorem lookups_keep_trees {s : Store} {rs : List (Int × Request)} {limit : Int} {d : Bytes}
    {a : Answer} (hget : s.Answered rs limit (.get d) a) :
    (∃ e, a = .failed e) ∨ ∃ t, a = .tree t ∧ t.validate limit = .ok () ∧
      t.digest limit = .ok d ∧
      (∀ limit' u, s.Answered rs limit' (.put u) (.digest d) →
        t.compare limit u = .ok 0 ∨ Tree.Collision Sha256.hash t u) ∧
      (∀ s' rs' limit' u, Answered s' rs' limit' (.get d) (.tree u) →
        t.compare limit u = .ok 0 ∨ Tree.Collision Sha256.hash t u) := by
  rcases honest_run hget with ⟨t, rfl, ht⟩ | hfailed
  · refine .inr ⟨t, rfl, ht.1, ht.2, ?_, ?_⟩
    · intro limit' u hput
      rcases honest_run hput with ⟨d', hd, hu⟩ | ⟨e, he⟩
      · cases hd
        exact ht.compare_or_collision hu
      · cases he
    · intro s' rs' limit' u hother
      rcases honest_run hother with ⟨u', hu', hu⟩ | ⟨e, he⟩
      · cases hu'
        exact ht.compare_or_collision hu
      · cases he
  · exact .inl hfailed

/-- The entry of a leaf is overwritten twice: with another spelling of the leaf, which is found and
has the other zero, and with no bytes, so that the lookup fails. -/
theorem lookups_keep_trees_respelt :
    let minus := Tree.node (.float ⟨0x8000000000000000⟩) []
    let plus := Tree.node (.float ⟨0⟩) []
    let d := Digest.write (minus.hexDigest Sha256.hash)
    let respelt := Zstd.rawCoder.compress [0x38, 0x2A, 0x08, 0x01, 0x08, 0x02]
    let rs := [(0, Request.put minus), (0, .overwrite d respelt), (0, .get d),
      (0, .overwrite d []), (0, .get d)]
    (Answered {} rs 0 (.put minus) (.digest d) ∧ Answered {} rs 0 (.get d) (.tree plus) ∧
        ∃ e, Answered {} rs 0 (.get d) (.failed e)) ∧
      plus.validate 0 = .ok () ∧ plus.digest 0 = .ok d ∧
      (plus.compare 0 minus = .ok 0 ∨ Tree.Collision Sha256.hash plus minus) := by
  intro minus plus d respelt rs
  have hsame : plus.Same minus := .node (.float (.inr (.inl ⟨rfl, rfl⟩))) .nil
  have hminus : minus.digest 0 = .ok d := Tree.digestWith_eq rfl
  have hentry : entryOf Zstd.rawCoder 0 minus =
      .ok (d, Zstd.rawCoder.compress (Codec.writeProto minus)) :=
    entryOf_eq_ok_iff.mpr ⟨rfl, hminus, rfl⟩
  have hdigest : Digest.validate d = .ok () :=
    Tree.validate_digestWith Sha256.hash_length rfl hminus
  have hplus : plus.digest 0 = .ok d := by
    rw [Tree.digest, Tree.digestWith_eq rfl, hsame.hexDigest]
  have hverify : plus.verify 0 d = .ok true := by
    rw [Tree.verify, hdigest, hplus]
    exact congrArg Except.ok (decide_eq_true rfl)
  have hrespelt : treeOf Zstd.rawCoder 0 d respelt = .ok plus := by
    have hread : Codec.readWith Zstd.rawCoder 0 reading respelt = .ok plus := by
      rw [Codec.readWith, Codec.unwrapWith, reading, Bool.true_or, if_pos rfl,
        Zstd.rawCoder_roundTrips _ (by decide)]
      rfl
    simp only [treeOf, hread, hverify]
  obtain ⟨e, hempty⟩ : ∃ e, treeOf Zstd.rawCoder 0 d [] = .error e := ⟨_, rfl⟩
  have hkey : d ≠ [] := by
    intro hnil
    rw [hnil] at hdigest
    cases hdigest
  have hanswers : (run {} rs).1 = [.digest d, .done, .tree plus, .done, .failed e] := by
    simp [rs, run, step, put, get, fetch, overwrite, hentry, hdigest, hrespelt, hempty, hkey,
      insertNew, Table.empty, Table.get?_insert, Table.get?, answer]
  have hput : Answered {} rs 0 (.put minus) (.digest d) := by
    rw [Answered, hanswers]
    simp [rs]
  have hget : Answered {} rs 0 (.get d) (.tree plus) := by
    rw [Answered, hanswers]
    simp [rs]
  refine ⟨⟨hput, hget, e, ?_⟩, ?_⟩
  · rw [Answered, hanswers]
    simp [rs]
  · rcases lookups_keep_trees hget with ⟨e, he⟩ | ⟨t, ht, hvalid, hdigest, hputs, -⟩
    · cases he
    · cases ht
      exact ⟨hvalid, hdigest, hputs 0 minus hput⟩

end Arbor.Store
