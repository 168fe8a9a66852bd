import Arbor.Proofs.Store.Limits

/-! The counters of an open store are found again from the answers that it has given. -/
namespace Arbor.Store

def Request.isLookup : Request → Bool
  | get d => Digest.validate d = .ok ()
  | _ => false

/-- What the answer to a lookup says that it came to. -/
def Answer.lookup? : Answer → Option Lookup
  | tree _ => some .hit
  | failed (.notFound _) => some .miss
  | failed (.corrupt _ _) => some .corrupt
  | _ => none

def Event.isStored : Event → Bool
  | (.put _, .digest _) => true
  | _ => false

/-- Whether a well-formed digest was looked up with this result. -/
def Event.isLookupOf (x : Lookup) (e : Event) : Bool :=
  e.1.isLookup && decide (e.2.lookup? = some x)

/-- No answer says of a lookup that it failed for another reason. -/
theorem not_isLookupOf_error (e : Event) : ¬ Event.isLookupOf .error e := by
  obtain ⟨r, a⟩ := e
  cases a with
  | failed e => cases e <;> simp [Event.isLookupOf, Answer.lookup?]
  | _ => simp [Event.isLookupOf, Answer.lookup?]

section Step

variable {limit : Int} {s : Store} {r : Request}

theorem lookup?_fetch (limit : Int) (hopen : s.isOpen = true) (d : Bytes) :
    (answer .tree (s.fetch limit d)).lookup? = some (lookupOf (s.fetch limit d)) ∧
      lookupOf (s.fetch limit d) ≠ .error := by
  rw [fetch, if_pos hopen]
  cases s.table.get? d with
  | none => exact ⟨rfl, by simp [lookupOf]⟩
  | some data =>
      dsimp only [treeOf]
      cases Codec.readWith s.coder limit reading data with
      | error e => exact ⟨rfl, by simp [lookupOf]⟩
      | ok t =>
          dsimp only
          cases t.verify limit d with
          | error e => exact ⟨rfl, by simp [lookupOf]⟩
          | ok b => cases b <;> exact ⟨rfl, by simp [lookupOf]⟩

theorem Outcome.counters_unchanged {a : Answer} {after : Store} (h : Outcome limit s r a after)
    (hlookup : r.isLookup = false) (hstored : Event.isStored (r, a) = false) :
    after.counters = s.counters := by
  cases h with
  | stored hopen hentry => cases hstored
  | lookup hdigest ha => simp [Request.isLookup, hdigest] at hlookup
  | _ => rfl

theorem Outcome.counters_put {t : Tree} {a : Answer} {after : Store}
    (h : Outcome limit s (.put t) a after) (hstored : Event.isStored (.put t, a)) :
    after.counters = s.counters.countPut := by
  cases h with
  | stored hopen hentry => rfl
  | failed he => cases hstored

/-- A lookup of a well-formed digest is counted under the label that its answer tells. -/
theorem counters_get (limit : Int) (hopen : s.isOpen = true) {d : Bytes}
    (hd : Digest.validate d = .ok ()) :
    ∃ x, (s.step limit (.get d)).1.lookup? = some x ∧ x ≠ .error ∧
      (s.step limit (.get d)).2.counters = s.counters.countLookup x := by
  obtain ⟨hanswer, hknown⟩ := lookup?_fetch limit hopen d
  refine ⟨lookupOf (s.fetch limit d), ?_, hknown, ?_⟩
  · rw [step, get, hd]
    exact hanswer
  · rw [step, get, hd]

end Step

/-- The counters have grown by what the events tell. -/
structure Accounts (before after : Counters) (es : List Event) : Prop where
  puts : after.puts = before.puts + es.countP Event.isStored
  lookups : ∀ x, after.lookups x = before.lookups x + es.countP (Event.isLookupOf x)
  /-- Each lookup is told by its answer to be one of three. -/
  all : es.countP (fun e => e.1.isLookup) = es.countP (Event.isLookupOf .hit) +
    es.countP (Event.isLookupOf .miss) + es.countP (Event.isLookupOf .corrupt)

namespace Accounts

variable {limit : Int} {s : Store} {r : Request}

theorem nil (c : Counters) : Accounts c c [] := ⟨rfl, fun _ => rfl, rfl⟩

theorem append {a b c : Counters} {es fs : List Event} (h : Accounts a b es)
    (h' : Accounts b c fs) : Accounts a c (es ++ fs) := by
  refine ⟨?_, ?_, ?_⟩
  · rw [h'.puts, h.puts, List.countP_append, Nat.add_assoc]
  · intro x
    rw [h'.lookups, h.lookups, List.countP_append, Nat.add_assoc]
  · simp only [List.countP_append, h.all, h'.all]
    omega

theorem unchanged (c : Counters) {e : Event} (hlookup : e.1.isLookup = false)
    (hstored : e.isStored = false) : Accounts c c [e] := by
  refine ⟨?_, ?_, ?_⟩
  · simp [hstored]
  · simp [Event.isLookupOf, hlookup]
  · simp [Event.isLookupOf, hlookup]

theorem stored (c : Counters) {e : Event} (hlookup : e.1.isLookup = false)
    (hstored : e.isStored) : Accounts c c.countPut [e] := by
  refine ⟨?_, ?_, ?_⟩
  · simp [hstored, Counters.countPut]
  · simp [Event.isLookupOf, hlookup, Counters.countPut]
  · simp [Event.isLookupOf, hlookup]

theorem lookup (c : Counters) {e : Event} {x : Lookup} (hlookup : e.1.isLookup)
    (hanswer : e.2.lookup? = some x) (hknown : x ≠ .error) (hstored : e.isStored = false) :
    Accounts c (c.countLookup x) [e] := by
  refine ⟨?_, ?_, ?_⟩
  · simp [hstored, Counters.countLookup]
  · intro y
    by_cases hy : y = x
    · simp [Event.isLookupOf, hlookup, hanswer, Counters.countLookup, hy]
    · simp [Event.isLookupOf, hlookup, hanswer, Counters.countLookup, hy, Ne.symm hy]
  · cases x with
    | error => exact absurd rfl hknown
    | _ => simp [Event.isLookupOf, hlookup, hanswer]

theorem step (hopen : s.isOpen = true) :
    Accounts s.counters (s.step limit r).2.counters [(r, (s.step limit r).1)] := by
  cases hlookup : r.isLookup with
  | true =>
      cases r with
      | get d =>
          obtain ⟨x, hanswer, hknown, hcounters⟩ :=
            counters_get limit hopen (of_decide_eq_true hlookup)
          rw [hcounters]
          exact lookup _ hlookup hanswer hknown rfl
      | _ => cases hlookup
  | false =>
      cases hstored : Event.isStored (r, (s.step limit r).1) with
      | true =>
          cases r with
          | put t =>
              rw [(step_outcome limit s (.put t)).counters_put hstored]
              exact stored _ hlookup hstored
          | _ => cases hstored
      | false =>
          rw [(step_outcome limit s r).counters_unchanged hlookup hstored]
          exact unchanged _ hlookup hstored

/-- A whole run that does not close the store, by induction over the requests. -/
theorem run {rs : List (Int × Request)} (hopen : s.isOpen = true) (hrs : ∀ q ∈ rs, q.2 ≠ .close) :
    Accounts s.counters (s.run rs).2.counters ((rs.map Prod.snd).zip (s.run rs).1) := by
  induction rs generalizing s with
  | nil => exact nil _
  | cons q rs ih =>
      obtain ⟨hq, hrest⟩ := List.forall_mem_cons.mp hrs
      obtain ⟨limit, r⟩ := q
      exact (step hopen).append (ih ((step_outcome limit s r).isOpen hopen hq) hrest)

end Accounts

/-- For a store that is open over any entries, with any way to decompress them and its counters at
zero, and for any requests that do not close it, each with a limit of its own: the counter of puts is
the number of puts that have returned a digest. The counters of hits, misses and corrupt entries are
the numbers of lookups of well-formed digests that have returned a tree, found nothing or reported
damage, and together the number of all such lookups. There is no counter with another label. No other
request changes a counter, nor does a put that fails. -/
theorem counters_account (z : Zstd.Coder) (table : Table) {rs : List (Int × Request)}
    (hrs : ∀ q ∈ rs, q.2 ≠ .close) :
    let s := (run { table, coder := z } rs).2
    let es := (rs.map Prod.snd).zip (run { table, coder := z } rs).1
    s.counters.puts = es.countP Event.isStored ∧
    s.counters.lookups .hit = es.countP (Event.isLookupOf .hit) ∧
    s.counters.lookups .miss = es.countP (Event.isLookupOf .miss) ∧
    s.counters.lookups .corrupt = es.countP (Event.isLookupOf .corrupt) ∧
    s.counters.lookups .hit + s.counters.lookups .miss + s.counters.lookups .corrupt =
      es.countP (fun e => e.1.isLookup) ∧
    s.counters.lookups .error = 0 ∧
    (∀ p ∈ s.counters.samples, p.label ∈ [none, some "hit", some "miss", some "corrupt"]) ∧
    ∀ (s : Store) limit r, r.isLookup = false → Event.isStored (r, (s.step limit r).1) = false →
      (s.step limit r).2.counters = s.counters := by
  intro s es
  have h : Accounts {} s.counters es := Accounts.run (s := { table, coder := z }) rfl hrs
  have hputs : s.counters.puts = es.countP Event.isStored := h.puts.trans (Nat.zero_add _)
  have hlookups : ∀ x, s.counters.lookups x = es.countP (Event.isLookupOf x) :=
    fun x => (h.lookups x).trans (Nat.zero_add _)
  have herror : s.counters.lookups .error = 0 := by
    rw [hlookups, List.countP_eq_zero]
    exact fun e _ => not_isLookupOf_error e
  refine ⟨hputs, hlookups _, hlookups _, hlookups _, ?_, herror, ?_, ?_⟩
  · rw [hlookups, hlookups, hlookups, h.all]
  · intro p hp
    rcases List.mem_append.mp hp with hp | hp
    · obtain ⟨x, hx, rfl⟩ := List.mem_map.mp hp
      cases x with
      | error => simp [herror] at hx
      | _ => simp [Lookup.label]
    · rw [List.mem_singleton.mp hp]
      simp
  · intro s limit r hlookup hstored
    exact (step_outcome limit s r).counters_unchanged hlookup hstored

/-- One entry is no tree, one digest, by another algorithm, has no entry, and a leaf is put twice and
found. -/
theorem counters_account_each :
    let t := Tree.node .null []
    let d := Digest.write (t.hexDigest Sha256.hash)
    let damaged := Digest.write (List.replicate 64 48)
    let missing := Bytes.ofString "sha512:" ++ List.replicate 128 49
    let rs := [(0, Request.get damaged), (0, .get missing), (0, .get []), (0, .put .absent),
      (0, .put t), (0, .put t), (0, .get d), (0, .has d), (0, .delete missing), (0, .list)]
    let s := (run { table := [(damaged, [0])] } rs).2
    (∀ q ∈ rs, q.2 ≠ .close) ∧ s.counters.puts = 2 ∧ s.counters.lookups .hit = 1 ∧
      s.counters.lookups .miss = 1 ∧ s.counters.lookups .corrupt = 1 := by
  intro t d damaged missing rs s
  have hrs : ∀ q ∈ rs, q.2 ≠ .close := by simp [rs]
  obtain ⟨hputs, hhit, hmiss, hcorrupt, -⟩ := counters_account Zstd.rawCoder [(damaged, [0])] hrs
  obtain ⟨data, hentry, htree⟩ : ∃ data, entryOf Zstd.rawCoder 0 t = .ok (d, data) ∧
      treeOf Zstd.rawCoder 0 d data = .ok t := by
    have hentry : entryOf Zstd.rawCoder 0 t =
        .ok (d, Zstd.rawCoder.compress (Codec.writeProto t)) :=
      entryOf_eq_ok_iff.mpr ⟨rfl, Tree.digestWith_eq rfl, rfl⟩
    exact ⟨_, hentry, treeOf_entry Zstd.rawCoder_roundTrips hentry (by decide)⟩
  obtain ⟨e, habsent⟩ : ∃ e, entryOf Zstd.rawCoder 0 .absent = .error e := ⟨_, rfl⟩
  have hbytes :
      treeOf Zstd.rawCoder 0 damaged [0] = .error (.corrupt damaged (.codec .encoding)) := by rfl
  have hd : Digest.validate d = .ok () := validate_of_entryOf hentry
  have hdamaged : Digest.validate damaged = .ok () := Digest.validate_write rfl (by decide)
  have hmissing : Digest.validate missing = .ok () := by decide +kernel
  have hnone : Digest.validate [] = .error .format := rfl
  have hnew : damaged ≠ d := by decide +kernel
  have hold : d ≠ missing := by decide +kernel
  have hother : damaged ≠ missing := by decide
  clear_value d damaged missing
  obtain ⟨table, htable, hfound, hmissed⟩ : ∃ table, insertNew [(damaged, [0])] d data = table ∧
      table.get? d = some data ∧ table.get? missing = none := by
    have hinsert : insertNew [(damaged, [0])] d data = Table.insert d data [(damaged, [0])] := by
      simp [insertNew, Table.get?, hnew]
    refine ⟨_, hinsert, ?_, ?_⟩
    · simp [Table.get?_insert]
    · simp [Table.get?_insert, Table.get?, hold, hother]
  have hagain : insertNew table d data = table := by simp [insertNew, hfound]
  have hanswers : (run { table := [(damaged, [0])] } rs).1 =
      [.failed (.corrupt damaged (.codec .encoding)), .failed (.notFound missing),
        .failed (.digest .format), .failed e, .digest d, .digest d, .tree t, .found true,
        .failed (.notFound missing), .digests table.keys] := by
    simp [rs, run, step, get, fetch, Table.get?, put, has, delete, list, answer, hdamaged, hmissing,
      hnone, hbytes, habsent, hentry, hother, htable, hagain, hd, hfound, htree, hmissed,
      Except.mapError]
  rw [hanswers] at hputs hhit hmiss hcorrupt
  refine ⟨hrs, hputs.trans rfl, hhit.trans ?_, hmiss.trans ?_, hcorrupt.trans ?_⟩
  all_goals
    simp [rs, Event.isLookupOf, Request.isLookup, Answer.lookup?, hd, hdamaged, hmissing, hnone]

end Arbor.Store
