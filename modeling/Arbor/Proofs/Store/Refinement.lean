import Arbor.Proofs.Store.History

/-! An open store answers as the set of digests that its history leaves. -/
namespace Arbor.Store

/-- The requests with their answers, and the store after them, from an empty store on and under one
depth limit. -/
def served (z : Zstd.Coder) (limit : Int) (rs : List Request) : List Event × Store :=
  let (answers, s) := run { coder := z } (rs.map (limit, ·))
  (rs.zip answers, s)

theorem served_reflects {z : Zstd.Coder} {limit : Int} {rs : List Request}
    (hrs : ∀ r ∈ rs, r.isRegular = true) :
    (served z limit rs).2.isOpen = true ∧ (served z limit rs).2.coder = z ∧
      Reflects z limit (served z limit rs).1 (served z limit rs).2.table := by
  have hempty : Reflects z limit [] ({ coder := z } : Store).table := .empty
  exact hempty.run (s := { coder := z }) rfl rfl hrs

theorem mem_of_mem_served {z : Zstd.Coder} {limit : Int} {rs : List Request} {r : Request}
    {a : Answer} (h : (r, a) ∈ (served z limit rs).1) : r ∈ rs :=
  (List.of_mem_zip h).1

/-- An open store answers as the set of digests that its history leaves. -/
structure ActsAsSet (limit : Int) (history : List Event) (s : Store) : Prop where
  /-- The list is the set, strictly ascending. -/
  list : ∃ ds, s.list = .ok ds ∧ ds.Pairwise (· < ·) ∧ ∀ d, d ∈ ds ↔ Stored history d
  has : ∀ d, s.has d = .ok true ↔ Stored history d
  /-- A put succeeds for valid trees only and for all of them. -/
  put : ∀ t, (∃ d, (s.put limit t).1 = .ok d) ↔ t.validate limit = .ok ()
  put_digest : ∀ t d, (s.put limit t).1 = .ok d → t.digest limit = .ok d
  /-- What is found is equal to all that was put. -/
  get : ∀ d, Stored history d → ∃ t, (s.get limit d).1 = .ok t ∧
    ∀ u, (.put u, .digest d) ∈ history → t.compare limit u = .ok 0
  delete : ∀ d, Stored history d → (s.delete d).1 = .ok ()
  outside : ∀ d, Digest.validate d = .ok () → ¬ Stored history d →
    s.has d = .ok false ∧ (s.get limit d).1 = .error (.notFound d) ∧
      (s.delete d).1 = .error (.notFound d)
  failed : ∀ r e, r.isRegular = true → (s.step limit r).1 = .failed e →
    (s.step limit r).2.table = s.table

section Answers

variable {z : Zstd.Coder} {limit : Int} {history : List Event} {s : Store} {d : Bytes} {t : Tree}

theorem put_eq_ok_iff (hopen : s.isOpen = true) :
    (s.put limit t).1 = .ok d ↔ ∃ data, entryOf s.coder limit t = .ok (d, data) := by
  rw [put]
  cases entryOf s.coder limit t with
  | error e => simp
  | ok entry =>
      obtain ⟨c, data⟩ := entry
      simp [hopen]

theorem has_eq (hopen : s.isOpen = true) (hd : Digest.validate d = .ok ()) :
    s.has d = .ok (s.table.get? d).isSome := by
  rw [has, hd]
  simp only [hopen, if_true]
  rfl

theorem get_eq (hopen : s.isOpen = true) (hd : Digest.validate d = .ok ()) :
    (s.get limit d).1 = match s.table.get? d with
      | none => .error (.notFound d)
      | some data => treeOf s.coder limit d data := by
  cases hget : s.table.get? d with
  | none => simp only [get, hd, fetch, hopen, hget, if_true]
  | some data => simp only [get, hd, fetch, hopen, hget, if_true]

theorem delete_eq (hopen : s.isOpen = true) (hd : Digest.validate d = .ok ()) :
    (s.delete d).1 = if (s.table.get? d).isSome then .ok () else .error (.notFound d) := by
  simp only [delete, hd, hopen, if_true]
  split <;> rfl

theorem validate_of_entryOf {data : Bytes} (h : entryOf z limit t = .ok (d, data)) :
    Digest.validate d = .ok () := by
  obtain ⟨ht, hd, -⟩ := entryOf_eq_ok_iff.mp h
  exact Tree.validate_digestWith Sha256.hash_length ht hd

theorem same_of_entryOf {u : Tree} {data data' : Bytes} (ht : entryOf z limit t = .ok (d, data))
    (hu : entryOf z limit u = .ok (d, data')) (hcollision : ¬ Tree.Collision Sha256.hash t u) :
    t.Same u := by
  obtain ⟨ht, hdt, -⟩ := entryOf_eq_ok_iff.mp ht
  obtain ⟨hu, hdu, -⟩ := entryOf_eq_ok_iff.mp hu
  rw [Tree.digest, Tree.digestWith_eq ht] at hdt
  rw [Tree.digest, Tree.digestWith_eq hu, ← hdt] at hdu
  have hhex := List.append_cancel_left (Except.ok.inj hdu)
  rcases Tree.same_or_collision Sha256.hash_length (Tree.complete_of_validateAt ht)
    (Tree.complete_of_validateAt hu) hhex.symm with hsame | hboth
  · exact hsame
  · exact absurd hboth hcollision

namespace Reflects

theorem validate_of_stored (h : Reflects z limit history s.table) (hd : Stored history d) :
    Digest.validate d = .ok () := by
  obtain ⟨data, hget⟩ := Option.isSome_iff_exists.mp ((h.stored d).mpr hd)
  obtain ⟨t, -, hentry⟩ := h.entry hget
  exact validate_of_entryOf hentry

theorem get_none (h : Reflects z limit history s.table) (hd : ¬ Stored history d) :
    s.table.get? d = none := by
  rw [← h.stored] at hd
  exact Option.not_isSome_iff_eq_none.mp hd

theorem list_eq (h : Reflects z limit history s.table) (hopen : s.isOpen = true) :
    ∃ ds, s.list = .ok ds ∧ ds.Pairwise (· < ·) ∧ ∀ d, d ∈ ds ↔ Stored history d := by
  refine ⟨s.table.keys, by rw [list, if_pos hopen], h.ascending, ?_⟩
  intro d
  rw [Table.mem_keys_iff, h.stored]

theorem has_iff (h : Reflects z limit history s.table) (hopen : s.isOpen = true) (d : Bytes) :
    s.has d = .ok true ↔ Stored history d := by
  constructor
  · intro hhas
    obtain ⟨hdigest, -⟩ := check_bind_eq_ok_iff.mp hhas
    rw [has_eq hopen (mapError_eq_ok_iff.mp hdigest)] at hhas
    exact (h.stored d).mp (Except.ok.inj hhas)
  · intro hd
    rw [has_eq hopen (h.validate_of_stored hd), (h.stored d).mpr hd]

/-- A lookup of a stored digest reads the entry of some tree that was put, and that is equal to all
others under the digest. -/
theorem get_stored (h : Reflects z limit history s.table) (hopen : s.isOpen = true)
    (hcoder : s.coder = z) (hz : z.RoundTrips)
    (hsize : ∀ t a, (.put t, a) ∈ history → t.validate limit = .ok () →
      (Codec.writeProto t).length < 2 ^ 64)
    (hcollision : ∀ t a u b, (.put t, a) ∈ history → (.put u, b) ∈ history →
      t.validate limit = .ok () → u.validate limit = .ok () → ¬ Tree.Collision Sha256.hash t u)
    (hd : Stored history d) :
    ∃ t, (s.get limit d).1 = .ok t ∧
      ∀ u, (.put u, .digest d) ∈ history → t.compare limit u = .ok 0 := by
  obtain ⟨data, hget⟩ := Option.isSome_iff_exists.mp ((h.stored d).mpr hd)
  obtain ⟨t, ht, hentry⟩ := h.entry hget
  have hvalid := (entryOf_eq_ok_iff.mp hentry).1
  refine ⟨t.plusZero, ?_, ?_⟩
  · rw [get_eq hopen (h.validate_of_stored hd), hget, hcoder]
    exact treeOf_entry hz hentry (hsize t _ ht hvalid)
  · intro u hu
    obtain ⟨data', hentry'⟩ := h.returned hu
    have hvalid' := (entryOf_eq_ok_iff.mp hentry').1
    have hsame := same_of_entryOf hentry hentry' (hcollision t _ u _ ht hu hvalid hvalid')
    exact Tree.compare_of_same hvalid' (t.plusZero_same.trans hsame)

end Reflects

end Answers

/-- From an empty store and under one depth limit, any run of puts, lookups, questions, deletes and
lists leaves a store that answers as a set of trees up to comparison. Decompression undoes
compression, lengths on the wire are words of 64 bits, and the hash function does not collide on the
nodes of the trees that were put. -/
theorem run_refines_set {z : Zstd.Coder} (hz : z.RoundTrips) {limit : Int} {rs : List Request}
    (hrs : ∀ r ∈ rs, r.isRegular = true)
    (hsize : ∀ t, .put t ∈ rs → t.validate limit = .ok () → (Codec.writeProto t).length < 2 ^ 64)
    (hcollision : ∀ t u, .put t ∈ rs → .put u ∈ rs → t.validate limit = .ok () →
      u.validate limit = .ok () → ¬ Tree.Collision Sha256.hash t u) :
    ActsAsSet limit (served z limit rs).1 (served z limit rs).2 := by
  obtain ⟨hopen, hcoder, h⟩ : _ ∧ _ ∧ Reflects z limit _ _ := served_reflects hrs
  refine ⟨h.list_eq hopen, h.has_iff hopen, ?_, ?_, ?_, ?_, ?_, ?_⟩
  · intro t
    simp only [put_eq_ok_iff hopen, hcoder]
    constructor
    · rintro ⟨d, data, hentry⟩
      exact (entryOf_eq_ok_iff.mp hentry).1
    · exact exists_entryOf
  · intro t d hd
    obtain ⟨data, hentry⟩ := (put_eq_ok_iff hopen).mp hd
    exact (entryOf_eq_ok_iff.mp hentry).2.1
  · intro d hd
    refine h.get_stored hopen hcoder hz ?_ ?_ hd
    · intro t a ht
      exact hsize t (mem_of_mem_served ht)
    · intro t a u b ht hu
      exact hcollision t u (mem_of_mem_served ht) (mem_of_mem_served hu)
  · intro d hd
    rw [delete_eq hopen (h.validate_of_stored hd), if_pos ((h.stored d).mpr hd)]
  · intro d hdigest hd
    rw [has_eq hopen hdigest, get_eq hopen hdigest, delete_eq hopen hdigest, h.get_none hd]
    exact ⟨rfl, rfl, rfl⟩
  · intro r e hr hfailed
    exact (step_outcome limit _ r).table_of_failed hfailed

/-- A leaf is put, deleted and put again with the other zero: its digest is there, and leads to a
tree equal to both. A digest by another algorithm is not. -/
theorem run_refines_set_zeros :
    let minus := Tree.node (.float ⟨0x8000000000000000⟩) []
    let plus := Tree.node (.float ⟨0⟩) []
    let d := Digest.write (minus.hexDigest Sha256.hash)
    let other := Bytes.ofString "sha512:" ++ List.replicate 128 48
    let rs := [Request.put minus, .delete d, .put plus, .put .absent, .get []]
    let s := (served Zstd.rawCoder 0 rs).2
    (Zstd.rawCoder.RoundTrips ∧ (∀ r ∈ rs, r.isRegular = true) ∧
      (∀ t, .put t ∈ rs → t.validate 0 = .ok () → (Codec.writeProto t).length < 2 ^ 64) ∧
      (∀ t u, .put t ∈ rs → .put u ∈ rs → t.validate 0 = .ok () → u.validate 0 = .ok () →
        ¬ Tree.Collision Sha256.hash t u)) ∧
      (∃ t, (s.get 0 d).1 = .ok t ∧ t.compare 0 minus = .ok 0 ∧ t.compare 0 plus = .ok 0) ∧
      s.has d = .ok true ∧ (s.get 0 other).1 = .error (.notFound other) := by
  intro minus plus d other rs s
  have hputs : ∀ t, .put t ∈ rs → t.validate 0 = .ok () → t = minus ∨ t = plus := by
    intro t ht hvalid
    simp only [rs, List.mem_cons, Request.put.injEq, reduceCtorEq, false_or, List.not_mem_nil,
      or_false] at ht
    rcases ht with rfl | rfl | rfl
    · exact .inl rfl
    · exact .inr rfl
    · cases hvalid
  have hregular : ∀ r ∈ rs, r.isRegular = true := by simp [rs, Request.isRegular]
  have hsize : ∀ t, .put t ∈ rs → t.validate 0 = .ok () →
      (Codec.writeProto t).length < 2 ^ 64 := by
    intro t ht hvalid
    rcases hputs t ht hvalid with rfl | rfl
    · decide
    · decide
  have hcollision : ∀ t u, .put t ∈ rs → .put u ∈ rs → t.validate 0 = .ok () →
      u.validate 0 = .ok () → ¬ Tree.Collision Sha256.hash t u := by
    -- both leaves are hashed by the same bytes
    have hleaf : ∀ t, .put t ∈ rs → t.validate 0 = .ok () →
        ∀ x ∈ t.nodes, x.digested Sha256.hash = minus.digested Sha256.hash := by
      intro t ht hvalid x hx
      rcases hputs t ht hvalid with rfl | rfl
      · rcases Tree.mem_nodes_node.mp hx with rfl | ⟨c, hc, -⟩
        · rfl
        · cases hc
      · rcases Tree.mem_nodes_node.mp hx with rfl | ⟨c, hc, -⟩
        · rfl
        · cases hc
    rintro t u ht hu htv huv ⟨x, hx, y, hy, hne, -⟩
    exact hne ((hleaf t ht htv x hx).trans (hleaf u hu huv y hy).symm)
  have hminus : entryOf Zstd.rawCoder 0 minus =
      .ok (d, Zstd.rawCoder.compress (Codec.writeProto minus)) :=
    entryOf_eq_ok_iff.mpr ⟨rfl, Tree.digestWith_eq rfl, rfl⟩
  have hplus : entryOf Zstd.rawCoder 0 plus =
      .ok (d, Zstd.rawCoder.compress (Codec.writeProto plus)) :=
    entryOf_eq_ok_iff.mpr ⟨rfl, Tree.digestWith_eq rfl, rfl⟩
  have hdigest : Digest.validate d = .ok () := validate_of_entryOf hminus
  have hset := run_refines_set Zstd.rawCoder_roundTrips hregular hsize hcollision
  obtain ⟨e, e', hhistory⟩ : ∃ e e', (served Zstd.rawCoder 0 rs).1 = [(.put minus, .digest d),
      (.delete d, .done), (.put plus, .digest d), (.put .absent, .failed e),
      (.get [], .failed e')] := by
    obtain ⟨e, habsent⟩ : ∃ e, entryOf Zstd.rawCoder 0 .absent = .error e := ⟨_, rfl⟩
    obtain ⟨e', hempty⟩ : ∃ e', Digest.validate [] = .error e' := ⟨_, rfl⟩
    refine ⟨e, .digest e', ?_⟩
    simp [served, rs, run, step, put, delete, get, hminus, hplus, habsent, hempty, hdigest,
      insertNew, Table.empty, Table.get?, Table.insert, answer]
  have hstored : Stored (served Zstd.rawCoder 0 rs).1 d := by
    rw [hhistory]
    exact ⟨[_, _], plus, [_, _], rfl, by simp⟩
  have hother : Digest.validate other = .ok () := by decide +kernel
  have hnone : ¬ Stored (served Zstd.rawCoder 0 rs).1 other := by
    rintro ⟨before, t, after, hsplit, -⟩
    have hmem : (Request.put t, Answer.digest other) ∈ (served Zstd.rawCoder 0 rs).1 := by
      rw [hsplit]
      simp
    have heq : other ≠ d := by
      intro heq
      exact absurd (congrArg (List.take 6) heq) (by decide +kernel)
    simp [hhistory, heq] at hmem
  obtain ⟨t, hget, hequal⟩ := hset.get d hstored
  refine ⟨⟨Zstd.rawCoder_roundTrips, hregular, hsize, hcollision⟩,
    ⟨t, hget, hequal minus ?_, hequal plus ?_⟩, (hset.has d).mpr hstored,
    (hset.outside other hother hnone).2.1⟩
  · rw [hhistory]
    simp
  · rw [hhistory]
    simp

end Arbor.Store
