import Mathlib.Data.List.Induction
import Mathlib.Data.List.Nodup
import Arbor.Proofs.Codec.ProtoDepth
import Arbor.Proofs.Store.Integrity
import Arbor.Proofs.Store.Refinement

/-! Each request of a run may have a depth limit of its own. -/
namespace Arbor.Store

section Entries

variable {z : Zstd.Coder} {limit wide : Int} {t u : Tree} {d data : Bytes}

theorem entryOf_limit (hentry : entryOf z wide t = .ok (d, data)) (ht : t.validate limit = .ok ()) :
    entryOf z limit t = .ok (d, data) := by
  obtain ⟨hwide, hd, hdata⟩ := entryOf_eq_ok_iff.mp hentry
  rw [Tree.digest, Tree.digestWith_eq hwide, ← Tree.digestWith_eq ht] at hd
  exact entryOf_eq_ok_iff.mpr ⟨ht, hd, hdata⟩

theorem entryOf_of_le (hle : limit ≤ wide) (hentry : entryOf z limit t = .ok (d, data)) :
    entryOf z wide t = .ok (d, data) := by
  obtain ⟨htyped, hcomplete, hdepth⟩ :=
    Tree.validate_eq_ok_iff.mp (entryOf_eq_ok_iff.mp hentry).1
  exact entryOf_limit hentry (Tree.validate_eq_ok_iff.mpr ⟨htyped, hcomplete, by omega⟩)

/-- An entry is read where its tree fits the limit, and reported as corrupt elsewhere. -/
theorem treeOf_entry_eq (hz : z.RoundTrips) (hentry : entryOf z wide t = .ok (d, data))
    (hsize : (Codec.writeProto t).length < 2 ^ 64) :
    treeOf z limit d data = if (t.depth : Int) ≤ limit + 1 then .ok t.plusZero
      else .error (.corrupt d (.codec (.fault (.tooDeep limit)))) := by
  obtain ⟨ht, -, hdata⟩ := entryOf_eq_ok_iff.mp hentry
  split
  next hdepth =>
    obtain ⟨htyped, hcomplete, -⟩ := Tree.validate_eq_ok_iff.mp ht
    exact treeOf_entry hz (entryOf_limit hentry
      (Tree.validate_eq_ok_iff.mpr ⟨htyped, hcomplete, hdepth⟩)) hsize
  next hdepth =>
    have hread : Codec.readWith z limit reading data = .error (.fault (.tooDeep limit)) := by
      rw [hdata, read_entry_eq hz hsize]
      exact (Codec.readProto_writeProto_eq ht hsize).trans (if_neg hdepth)
    rw [treeOf, hread]

theorem depth_of_same (htu : t.Same u) : t.depth = u.depth := by
  rw [Tree.depth_eq_levels, Tree.depth_eq_levels]
  exact htu.fold 0 fun _ _ _ _ => rfl

end Entries

theorem Effect.mono {z : Zstd.Coder} {limit wide : Int} {table after : Table} {e : Event}
    (hle : limit ≤ wide) (h : Effect z limit table e after) : Effect z wide table e after := by
  cases h with
  | stored hentry => exact .stored (entryOf_of_le hle hentry)
  | deleted hd => exact .deleted hd
  | kept hput hdelete => exact .kept hput hdelete

section Runs

/-- The requests with their answers, and the store after them, from an empty store on and each
request under its own limit. -/
def heard (z : Zstd.Coder) (rs : List (Int × Request)) : List Event × Store :=
  let (answers, s) := run { coder := z } rs
  ((rs.map Prod.snd).zip answers, s)

theorem run_append (s : Store) (rs qs : List (Int × Request)) :
    s.run (rs ++ qs) = ((s.run rs).1 ++ ((s.run rs).2.run qs).1, ((s.run rs).2.run qs).2) := by
  induction rs generalizing s with
  | nil => rfl
  | cons q rs ih =>
      obtain ⟨limit, r⟩ := q
      simp only [List.cons_append, run, ih]

theorem length_run (s : Store) (rs : List (Int × Request)) : (s.run rs).1.length = rs.length := by
  induction rs generalizing s with
  | nil => rfl
  | cons q rs ih =>
      obtain ⟨limit, r⟩ := q
      rw [run, List.length_cons, List.length_cons, ih]

theorem heard_append (z : Zstd.Coder) (rs : List (Int × Request)) (limit : Int) (r : Request) :
    heard z (rs ++ [(limit, r)]) =
      ((heard z rs).1 ++ [(r, ((heard z rs).2.step limit r).1)], ((heard z rs).2.step limit r).2) := by
  have hlength : (rs.map Prod.snd).length = (run { coder := z } rs).1.length := by
    rw [List.length_map, length_run]
  simp only [heard, run_append, List.map_append, List.zip_append hlength]
  rfl

/-- Every event of a run is the answer of the store that the requests before it have left. -/
theorem mem_heard_iff {z : Zstd.Coder} {rs : List (Int × Request)} {e : Event} :
    e ∈ (heard z rs).1 ↔ ∃ before limit r after, rs = before ++ (limit, r) :: after ∧
      e = (r, ((heard z before).2.step limit r).1) := by
  induction rs using List.reverseRecOn with
  | nil => simp [heard]
  | append_singleton rs q ih =>
      obtain ⟨limit, r⟩ := q
      rw [heard_append, List.mem_append, ih, List.mem_singleton]
      constructor
      · rintro (⟨before, l, p, after, rfl, he⟩ | he)
        · exact ⟨before, l, p, after ++ [(limit, r)], by simp, he⟩
        · exact ⟨rs, limit, r, [], rfl, he⟩
      · rintro ⟨before, l, p, after, hsplit, he⟩
        rcases List.eq_nil_or_concat after with rfl | ⟨rest, last, rfl⟩
        · obtain ⟨rfl, hq⟩ := List.append_inj' hsplit rfl
          cases hq
          exact .inr he
        · rw [List.concat_eq_append, ← List.cons_append, ← List.append_assoc] at hsplit
          exact .inl ⟨before, l, p, rest, (List.append_inj' hsplit rfl).1, he⟩

theorem exists_limit (rs : List (Int × Request)) : ∃ wide, ∀ q ∈ rs, q.1 ≤ wide := by
  induction rs with
  | nil => exact ⟨0, by simp⟩
  | cons q rs ih =>
      obtain ⟨wide, hwide⟩ := ih
      refine ⟨max q.1 wide, List.forall_mem_cons.mpr ⟨Int.le_max_left .., ?_⟩⟩
      exact fun p hp => Int.le_trans (hwide p hp) (Int.le_max_right ..)

variable {z : Zstd.Coder} {rs : List (Int × Request)}

/-- A run under several limits leaves a table as a run under the greatest of them does. -/
theorem heard_reflects {wide : Int} (hwide : ∀ q ∈ rs, q.1 ≤ wide)
    (hrs : ∀ q ∈ rs, q.2.isRegular = true) :
    (heard z rs).2.isOpen = true ∧ (heard z rs).2.coder = z ∧
      Reflects z wide (heard z rs).1 (heard z rs).2.table := by
  induction rs using List.reverseRecOn with
  | nil => exact ⟨rfl, rfl, .empty⟩
  | append_singleton rs q ih =>
      obtain ⟨limit, r⟩ := q
      simp only [List.forall_mem_append, List.forall_mem_singleton] at hwide hrs
      obtain ⟨hopen, hcoder, h⟩ := ih hwide.1 hrs.1
      obtain ⟨hopen', heffect⟩ : _ ∧ Effect _ limit _ _ _ := step_effect hopen hrs.2
      rw [hcoder] at heffect
      rw [heard_append]
      exact ⟨hopen', (step_outcome limit _ r).coder_eq.trans hcoder, h.step (heffect.mono hwide.2)⟩

/-- A put returns a digest for trees that are valid under its own limit. -/
theorem validate_of_mem_heard {t : Tree} {d : Bytes} (h : (.put t, .digest d) ∈ (heard z rs).1) :
    ∃ limit, (limit, .put t) ∈ rs ∧ t.validate limit = .ok () := by
  obtain ⟨before, limit, r, after, rfl, he⟩ := mem_heard_iff.mp h
  obtain ⟨rfl, hanswer⟩ := Prod.mk.inj he
  refine ⟨limit, by simp, ?_⟩
  rcases honest_step limit (.put t) (heard z before).2 with ⟨c, -, hvalid, -⟩ | ⟨e, hfailed⟩
  · exact hvalid
  · rw [hfailed] at hanswer
    cases hanswer

end Runs

section Damage

def Answer.isDamage : Answer → Bool
  | failed (.corrupt _ _) => true
  | _ => false

variable {limit : Int} {s : Store}

theorem isDamage_eq_false {e : StoreError} (he : ∀ d damage, e ≠ .corrupt d damage) :
    (Answer.failed e).isDamage = false := by
  cases e with
  | corrupt d damage => exact absurd rfl (he d damage)
  | _ => rfl

/-- No request but a lookup reports damage or counts as a lookup. -/
theorem Outcome.quiet {r : Request} {a : Answer} {after : Store} (h : Outcome limit s r a after)
    (hr : ∀ d, r ≠ .get d) : a.isDamage = false ∧ after.counters.lookups = s.counters.lookups := by
  cases h with
  | lookup hdigest ha => exact absurd rfl (hr _)
  | failed he => exact ⟨isDamage_eq_false he, rfl⟩
  | _ => exact ⟨rfl, rfl⟩

/-- One step: the counter of corrupt lookups counts the answers that report damage. -/
theorem corrupt_step (limit : Int) (r : Request) (s : Store) :
    (s.step limit r).2.counters.lookups .corrupt =
      s.counters.lookups .corrupt + (s.step limit r).1.isDamage.toNat := by
  by_cases hget : ∃ d, r = .get d
  · obtain ⟨d, rfl⟩ := hget
    rw [step, get]
    cases Digest.validate d with
    | error e => rfl
    | ok u =>
        cases s.fetch limit d with
        | ok t => rfl
        | error e => cases e <;> rfl
  · obtain ⟨hanswer, hcount⟩ := (step_outcome limit s r).quiet (not_exists.mp hget)
    rw [hanswer, hcount]
    rfl

theorem corrupt_heard (z : Zstd.Coder) (rs : List (Int × Request)) :
    (heard z rs).2.counters.lookups .corrupt = (heard z rs).1.countP fun e => e.2.isDamage := by
  induction rs using List.reverseRecOn with
  | nil => rfl
  | append_singleton rs q ih =>
      obtain ⟨limit, r⟩ := q
      rw [heard_append, corrupt_step, ih, List.countP_append, List.countP_singleton]
      cases ((heard z rs).2.step limit r).1.isDamage <;> rfl

/-- A stored tree has more levels than a lookup under the limit may read. -/
def TooDeep (history : List Event) (limit : Int) (d : Bytes) : Prop :=
  Stored history d ∧ ∃ t, (.put t, .digest d) ∈ history ∧ limit + 1 < t.depth

/-- A lookup reports damage exactly if the tree that was put is too deep for its limit. -/
theorem Reflects.get_corrupt_iff {z : Zstd.Coder} (hz : z.RoundTrips) {wide : Int}
    {history : List Event} {d c : Bytes} {damage : Damage} (h : Reflects z wide history s.table) (hopen : s.isOpen = true)
    (hcoder : s.coder = z)
    (hsize : ∀ t, (.put t, .digest d) ∈ history → (Codec.writeProto t).length < 2 ^ 64)
    (hcollision : ∀ t u, (.put t, .digest d) ∈ history → (.put u, .digest d) ∈ history →
      ¬ Tree.Collision Sha256.hash t u) :
    (s.get limit d).1 = .error (.corrupt c damage) ↔
      TooDeep history limit d ∧ c = d ∧ damage = .codec (.fault (.tooDeep limit)) := by
  by_cases hd : Stored history d
  · obtain ⟨data, hget⟩ := Option.isSome_iff_exists.mp ((h.stored d).mpr hd)
    obtain ⟨t, ht, hentry⟩ := h.entry hget
    have hdepth : TooDeep history limit d ↔ ¬ (t.depth : Int) ≤ limit + 1 := by
      constructor
      · rintro ⟨-, u, hu, hdeep⟩
        obtain ⟨data', hentry'⟩ := h.returned hu
        have hsame := same_of_entryOf hentry hentry' (hcollision t u ht hu)
        rw [depth_of_same hsame]
        omega
      · intro hdeep
        exact ⟨hd, t, ht, by omega⟩
    rw [get_eq hopen (h.validate_of_stored hd), hget, hdepth]
    simp only [hcoder, treeOf_entry_eq hz hentry (hsize t ht)]
    split
    next hle => simp [hle]
    next hdeep => simp [hdeep, eq_comm]
  · refine iff_of_false ?_ fun hdeep => hd hdeep.1.1
    cases hdigest : Digest.validate d with
    | error e => simp [get, hdigest]
    | ok u =>
        rw [get_eq hopen hdigest, h.get_none hd]
        simp

/-- What a lookup reports after a run, told by the requests of the run. -/
theorem heard_get_corrupt_iff {z : Zstd.Coder} (hz : z.RoundTrips) {rs : List (Int × Request)}
    {d c : Bytes} {damage : Damage} (hrs : ∀ q ∈ rs, q.2.isRegular = true)
    (hsize : ∀ limit t, (limit, .put t) ∈ rs → t.validate limit = .ok () →
      (Codec.writeProto t).length < 2 ^ 64)
    (hcollision : ∀ limit t limit' u, (limit, .put t) ∈ rs → (limit', .put u) ∈ rs →
      t.validate limit = .ok () → u.validate limit' = .ok () →
      ¬ Tree.Collision Sha256.hash t u) :
    ((heard z rs).2.get limit d).1 = .error (.corrupt c damage) ↔
      TooDeep (heard z rs).1 limit d ∧ c = d ∧ damage = .codec (.fault (.tooDeep limit)) := by
  obtain ⟨wide, hwide⟩ := exists_limit rs
  obtain ⟨hopen, hcoder, h⟩ := heard_reflects (z := z) hwide hrs
  apply h.get_corrupt_iff hz hopen hcoder
  · intro t ht
    obtain ⟨l, hmem, hvalid⟩ := validate_of_mem_heard ht
    exact hsize l t hmem hvalid
  · intro t u ht hu
    obtain ⟨l, hmem, hvalid⟩ := validate_of_mem_heard ht
    obtain ⟨l', hmem', hvalid'⟩ := validate_of_mem_heard hu
    exact hcollision l t l' u hmem hmem' hvalid hvalid'

theorem isDamage_get_iff {d : Bytes} : (s.step limit (.get d)).1.isDamage = true ↔
    ∃ c damage, (s.get limit d).1 = .error (.corrupt c damage) := by
  have hanswer : (s.step limit (.get d)).1 = answer .tree (s.get limit d).1 := rfl
  rw [hanswer]
  cases (s.get limit d).1 with
  | ok t => simp [answer, Answer.isDamage]
  | error e => cases e <;> simp [answer, Answer.isDamage]

end Damage

/-- From an empty store on, and with a limit of its own for each of the puts, lookups, questions,
deletes and lists, a lookup reports damage exactly if the tree that it would find has more levels
than its limit admits, and the limit is all that it reports. The counter of corrupt lookups is at
zero exactly if the run had no such lookup. Decompression undoes compression, lengths on the wire
are words of 64 bits, and the hash function does not collide on the nodes of the trees that were
put. -/
theorem corrupt_iff_tooDeep {z : Zstd.Coder} (hz : z.RoundTrips) {rs : List (Int × Request)}
    (hrs : ∀ q ∈ rs, q.2.isRegular = true)
    (hsize : ∀ limit t, (limit, .put t) ∈ rs → t.validate limit = .ok () →
      (Codec.writeProto t).length < 2 ^ 64)
    (hcollision : ∀ limit t limit' u, (limit, .put t) ∈ rs → (limit', .put u) ∈ rs →
      t.validate limit = .ok () → u.validate limit' = .ok () →
      ¬ Tree.Collision Sha256.hash t u) :
    (∀ limit d c damage, ((heard z rs).2.get limit d).1 = .error (.corrupt c damage) ↔
      TooDeep (heard z rs).1 limit d ∧ c = d ∧ damage = .codec (.fault (.tooDeep limit))) ∧
    ((heard z rs).2.counters.lookups .corrupt = 0 ↔
      ∀ before limit d after, rs = before ++ (limit, .get d) :: after →
        ¬ TooDeep (heard z before).1 limit d) := by
  refine ⟨fun limit d c damage => heard_get_corrupt_iff hz hrs hsize hcollision, ?_⟩
  -- what holds of all requests holds of those before a lookup
  have hbefore : ∀ before limit d after, rs = before ++ (limit, .get d) :: after →
      ∀ c damage, ((heard z before).2.get limit d).1 = .error (.corrupt c damage) ↔
        TooDeep (heard z before).1 limit d ∧ c = d ∧
          damage = .codec (.fault (.tooDeep limit)) := by
    rintro before limit d after rfl c damage
    have hmem : ∀ q ∈ before, q ∈ before ++ (limit, .get d) :: after :=
      fun q hq => List.mem_append_left _ hq
    exact heard_get_corrupt_iff hz (fun q hq => hrs q (hmem q hq))
      (fun l t ht => hsize l t (hmem _ ht))
      fun l t l' u ht hu => hcollision l t l' u (hmem _ ht) (hmem _ hu)
  rw [corrupt_heard, List.countP_eq_zero]
  constructor
  · intro hquiet before limit d after hsplit hdeep
    apply hquiet _ (mem_heard_iff.mpr ⟨before, limit, .get d, after, hsplit, rfl⟩)
    exact isDamage_get_iff.mpr
      ⟨d, _, (hbefore before limit d after hsplit _ _).mpr ⟨hdeep, rfl, rfl⟩⟩
  · intro hshallow e he hdamage
    obtain ⟨before, limit, r, after, hsplit, rfl⟩ := mem_heard_iff.mp he
    by_cases hget : ∃ d, r = .get d
    · obtain ⟨d, rfl⟩ := hget
      obtain ⟨c, damage, hcorrupt⟩ := isDamage_get_iff.mp hdamage
      exact hshallow before limit d after hsplit
        ((hbefore before limit d after hsplit c damage).mp hcorrupt).1
    · have hfalse := ((step_outcome limit (heard z before).2 r).quiet (not_exists.mp hget)).1
      exact Bool.false_ne_true (hfalse.symm.trans hdamage)

/-- A tree of three levels is put under the default limit. A lookup for two levels reports damage
and is counted, and one for three levels does not. -/
theorem corrupt_iff_tooDeep_negations :
    let t := Tree.node (.unary [0x2D] false) [.node (.unary [0x2D] false) [.node .null []]]
    let d := Digest.write (t.hexDigest Sha256.hash)
    let rs := [(10000, Request.put t), (1, .get d)]
    (Zstd.rawCoder.RoundTrips ∧ (∀ q ∈ rs, q.2.isRegular = true) ∧
      (∀ limit u, (limit, .put u) ∈ rs → u.validate limit = .ok () →
        (Codec.writeProto u).length < 2 ^ 64) ∧
      (∀ limit u limit' v, (limit, .put u) ∈ rs → (limit', .put v) ∈ rs →
        u.validate limit = .ok () → v.validate limit' = .ok () →
        ¬ Tree.Collision Sha256.hash u v)) ∧
      ((heard Zstd.rawCoder rs).2.get 1 d).1 = .error (.corrupt d (.codec (.fault (.tooDeep 1)))) ∧
      (∀ c damage, ((heard Zstd.rawCoder rs).2.get 2 d).1 ≠ .error (.corrupt c damage)) ∧
      (heard Zstd.rawCoder rs).2.counters.lookups .corrupt ≠ 0 := by
  intro t d rs
  have hput : ∀ limit u, (limit, .put u) ∈ rs → u = t := by
    intro limit u hu
    obtain ⟨-, rfl⟩ : limit = 10000 ∧ u = t := by simpa [rs] using hu
    rfl
  have hregular : ∀ q ∈ rs, q.2.isRegular = true := by simp [rs, Request.isRegular]
  have hsize : ∀ limit u, (limit, .put u) ∈ rs → u.validate limit = .ok () →
      (Codec.writeProto u).length < 2 ^ 64 := by
    intro limit u hu _
    rw [hput limit u hu]
    decide
  have hcollision : ∀ limit u limit' v, (limit, .put u) ∈ rs → (limit', .put v) ∈ rs →
      u.validate limit = .ok () → v.validate limit' = .ok () →
      ¬ Tree.Collision Sha256.hash u v := by
    intro limit u limit' v hu hv _ _
    rw [hput limit u hu, hput limit' v hv]
    rintro ⟨x, hx, y, hy, hbytes, hhash⟩
    have hnodup : (t.nodes.map fun x => Sha256.hash (x.digested Sha256.hash)).Nodup := by
      decide +kernel
    exact hbytes (congrArg _ (List.inj_on_of_nodup_map hnodup hx hy hhash))
  have hentry : entryOf Zstd.rawCoder 10000 t =
      .ok (d, Zstd.rawCoder.compress (Codec.writeProto t)) :=
    entryOf_eq_ok_iff.mpr ⟨rfl, Tree.digestWith_eq rfl, rfl⟩
  obtain ⟨hreports, hcounts⟩ :=
    corrupt_iff_tooDeep Zstd.rawCoder_roundTrips hregular hsize hcollision
  have hdepth : t.depth = 3 := by
    rw [Tree.depth_eq_levels]
    rfl
  have hfirst : (heard Zstd.rawCoder [(10000, .put t)]).1 = [(.put t, .digest d)] := by
    simp [heard, run, step, put, hentry, answer]
  obtain ⟨a, hlast⟩ : ∃ a, (heard Zstd.rawCoder rs).1 = [(.put t, .digest d), (.get d, a)] := by
    have happend := congrArg Prod.fst (heard_append Zstd.rawCoder [(10000, .put t)] 1 (.get d))
    rw [hfirst] at happend
    exact ⟨_, happend⟩
  have hdeep : TooDeep (heard Zstd.rawCoder rs).1 1 d := by
    rw [hlast]
    exact ⟨⟨[], t, _, rfl, by simp⟩, t, by simp, by omega⟩
  refine ⟨⟨Zstd.rawCoder_roundTrips, hregular, hsize, hcollision⟩,
    (hreports 1 d _ _).mpr ⟨hdeep, rfl, rfl⟩, ?_, ?_⟩
  · intro c damage hcorrupt
    obtain ⟨-, u, hu, hlevels⟩ := ((hreports 2 d c damage).mp hcorrupt).1
    obtain rfl : u = t := by simpa [hlast] using hu
    omega
  · intro hzero
    refine hcounts.mp hzero [(10000, .put t)] 1 d [] rfl ?_
    rw [hfirst]
    exact ⟨⟨[], t, [], rfl, by simp⟩, t, by simp, by omega⟩

theorem run_put_get {z : Zstd.Coder} {limit wide : Int} {t : Tree} {d data : Bytes}
    (hentry : entryOf z wide t = .ok (d, data)) :
    run { coder := z } [(wide, .put t), (limit, .get d)] =
      ([.digest d, answer .tree (treeOf z limit d data)],
        { table := [(d, data)], coder := z,
          counters := (Counters.countPut {}).countLookup (lookupOf (treeOf z limit d data)) }) := by
  have hdigest : Digest.validate d = .ok () := validate_of_entryOf hentry
  simp [run, step, put, get, fetch, hentry, hdigest, insertNew, Table.empty, Table.get?,
    Table.insert, answer]

/-- Nothing is damaged here, and yet the lookup says so, however the entry is compressed. -/
theorem not_quiet_negations :
    let t := Tree.node (.unary [0x2D] false) [.node (.unary [0x2D] false) [.node .null []]]
    let d := Digest.write (t.hexDigest Sha256.hash)
    let rs := [(10000, Request.put t), (1, .get d)]
    (∀ q ∈ rs, q.2.isRegular = true) ∧ ∀ z : Zstd.Coder, z.RoundTrips →
      (run { coder := z } rs).1 =
          [.digest d, .failed (.corrupt d (.codec (.fault (.tooDeep 1))))] ∧
        (run { coder := z } rs).2.counters.lookups .corrupt = 1 := by
  intro t d rs
  refine ⟨by simp [rs, Request.isRegular], fun z hz => ?_⟩
  have hentry : entryOf z 10000 t = .ok (d, z.compress (Codec.writeProto t)) :=
    entryOf_eq_ok_iff.mpr ⟨rfl, Tree.digestWith_eq rfl, rfl⟩
  have hdepth : t.depth = 3 := by
    rw [Tree.depth_eq_levels]
    rfl
  have hread : treeOf z 1 d (z.compress (Codec.writeProto t)) =
      .error (.corrupt d (.codec (.fault (.tooDeep 1)))) :=
    (treeOf_entry_eq hz hentry (by decide)).trans (if_neg (by omega))
  rw [run_put_get hentry, hread]
  exact ⟨rfl, rfl⟩

end Arbor.Store
