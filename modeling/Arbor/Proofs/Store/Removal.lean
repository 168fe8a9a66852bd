import Mathlib.Data.List.TakeWhile
import Arbor.Command.Run
import Arbor.Proofs.Store.Entry
import Arbor.Proofs.Store.Table

/-! An argument that is no digest ends a removal, and a digest that is missing does not. -/
namespace Arbor

namespace Table

theorem erase_of_get?_eq_none {t : Table} {d : Bytes} (h : t.get? d = none) : t.erase d = t := by
  refine List.filter_eq_self.mpr fun e he => decide_eq_true ?_
  rintro rfl
  have hkey : e.1 ∈ t.keys := List.mem_map_of_mem he
  rw [mem_keys_iff, h] at hkey
  cases hkey

def eraseAll : List Bytes → Table → Table
  | [], t => t
  | d :: ds, t => eraseAll ds (t.erase d)

theorem keys_eraseAll (ds : List Bytes) (t : Table) :
    (t.eraseAll ds).keys = t.keys.filter (· ∉ ds) := by
  induction ds generalizing t with
  | nil => simp [eraseAll]
  | cons d ds ih =>
      have herase : (t.erase d).keys = t.keys.filter (· ≠ d) := by
        rw [keys, keys, erase, List.filter_map]
        rfl
      rw [eraseAll, ih, herase, List.filter_filter]
      refine List.filter_congr fun e _ => ?_
      simp [Bool.and_comm]

theorem get?_eraseAll (ds : List Bytes) (t : Table) (d : Bytes) :
    (t.eraseAll ds).get? d = if d ∈ ds then none else t.get? d := by
  induction ds generalizing t with
  | nil => simp [eraseAll]
  | cons c ds ih =>
      rw [eraseAll, ih, get?_erase]
      by_cases hc : c = d
      · simp [hc]
      · simp [hc, Ne.symm hc]

/-- The digests that are not there when their turn to be deleted comes. -/
def missing : List Bytes → Table → List Bytes
  | [], _ => []
  | d :: ds, t => (if (t.get? d).isSome then [] else [d]) ++ missing ds (t.erase d)

/-- A digest is missing if it had no entry, or if it has been deleted before. -/
theorem mem_missing_iff {ds : List Bytes} {t : Table} {d : Bytes} :
    d ∈ missing ds t ↔
      ∃ before after, ds = before ++ d :: after ∧ (d ∈ before ∨ t.get? d = none) := by
  induction ds generalizing t with
  | nil => simp [missing]
  | cons c ds ih =>
      rw [missing, List.mem_append, ih]
      constructor
      · rintro (hnow | ⟨before, after, rfl, hlater⟩)
        · split at hnow
          · cases hnow
          next hnone =>
            obtain rfl := List.mem_singleton.mp hnow
            exact ⟨[], ds, rfl, .inr (Option.not_isSome_iff_eq_none.mp hnone)⟩
        · refine ⟨c :: before, after, rfl, ?_⟩
          rw [get?_erase] at hlater
          by_cases hc : c = d
          · exact .inl (hc ▸ List.mem_cons_self)
          · rw [if_neg hc] at hlater
            exact hlater.imp_left (List.mem_cons_of_mem c)
      · rintro ⟨before, after, hsplit, hearly⟩
        cases before with
        | nil =>
            obtain ⟨rfl, rfl⟩ := List.cons.inj hsplit
            have hnone : t.get? c = none := hearly.resolve_left List.not_mem_nil
            exact .inl (by simp [hnone])
        | cons b before =>
            obtain ⟨rfl, rfl⟩ := List.cons.inj hsplit
            refine .inr ⟨before, after, rfl, ?_⟩
            rw [get?_erase]
            by_cases hc : c = d
            · exact .inr (if_pos hc)
            · rw [if_neg hc]
              exact hearly.imp_left fun hmem => (List.mem_cons.mp hmem).resolve_left (Ne.symm hc)

theorem missing_eq_nil_iff {ds : List Bytes} {t : Table} :
    missing ds t = [] ↔ ds.Nodup ∧ ∀ d ∈ ds, (t.get? d).isSome := by
  induction ds generalizing t with
  | nil => simp [missing]
  | cons c ds ih =>
      have hrest : ∀ d, ((t.erase c).get? d).isSome ↔ d ≠ c ∧ (t.get? d).isSome := by
        intro d
        rw [get?_erase]
        by_cases hc : c = d
        · simp [hc]
        · simp [hc, Ne.symm hc]
      rw [missing, List.append_eq_nil_iff, ih, List.nodup_cons, List.forall_mem_cons]
      simp only [hrest]
      grind

end Table

namespace Store

variable {s : Store} {errors : List StoreError} {d : Bytes} {ds rest : List Bytes}

/-- Whether or not there is an entry, the removal goes on without one. -/
theorem removeFrom_cons (hopen : s.isOpen = true) (hd : Digest.validate d = .ok ()) :
    removeFrom errors (d :: ds) s =
      removeFrom (errors ++ if (s.table.get? d).isSome then [] else [.notFound d]) ds
        { s with table := s.table.erase d } := by
  rw [removeFrom, delete, hd]
  dsimp only
  rw [if_pos hopen]
  cases hget : s.table.get? d with
  | none =>
      rw [Table.erase_of_get?_eq_none hget]
      rfl
  | some data => simp

theorem removeFrom_append (hopen : s.isOpen = true) (hds : ∀ d ∈ ds, Digest.validate d = .ok ()) :
    removeFrom errors (ds ++ rest) s =
      removeFrom (errors ++ (Table.missing ds s.table).map .notFound) rest
        { s with table := s.table.eraseAll ds } := by
  induction ds generalizing s errors with
  | nil => simp [Table.missing, Table.eraseAll]
  | cons d ds ih =>
      obtain ⟨hd, hds⟩ := List.forall_mem_cons.mp hds
      rw [List.cons_append, removeFrom_cons hopen hd,
        ih (s := { s with table := s.table.erase d }) hopen hds, Table.eraseAll, Table.missing,
        List.append_assoc, List.map_append]
      cases s.table.get? d <;> rfl

/-- The arguments before the first one that is no digest. -/
def leading (names : List Bytes) : List Bytes := names.takeWhile fun d => Digest.validate d = .ok ()

theorem validate_of_mem_leading {names : List Bytes} (hd : d ∈ leading names) :
    Digest.validate d = .ok () := by
  have hvalid := List.mem_takeWhile_imp hd
  exact of_decide_eq_true hvalid

theorem leading_cases (names : List Bytes) :
    leading names = names ∨
      ∃ b rest e, names = leading names ++ b :: rest ∧ Digest.validate b = .error e := by
  induction names with
  | nil => exact .inl rfl
  | cons d names ih =>
      cases hd : Digest.validate d with
      | error e =>
          have hnone : leading (d :: names) = [] :=
            List.takeWhile_cons_of_neg (by simp [hd])
          exact .inr ⟨d, names, e, by rw [hnone, List.nil_append], hd⟩
      | ok u =>
          have hcons : leading (d :: names) = d :: leading names :=
            List.takeWhile_cons_of_pos (by simp [hd])
          rw [hcons]
          rcases ih with hall | ⟨b, rest, e, hsplit, hb⟩
          · exact .inl (congrArg (d :: ·) hall)
          · exact .inr ⟨b, rest, e, congrArg (d :: ·) hsplit, hb⟩

theorem removeAll_eq (hopen : s.isOpen = true) (names : List Bytes) :
    ∃ removal, removeAll names s = (removal, { s with table := s.table.eraseAll (leading names) }) ∧
      ((∀ d ∈ names, Digest.validate d = .ok ()) ∧
        removal = (if Table.missing names s.table = [] then .done
          else .failed ((Table.missing names s.table).map .notFound)) ∨
      (∃ d ∈ names, Digest.validate d ≠ .ok ()) ∧ ∃ e, removal = .notDigest e) := by
  rcases leading_cases names with hall | ⟨b, rest, e, hsplit, hb⟩
  -- no argument ends the removal, so what was missing is all that it tells
  · have hvalid : ∀ d ∈ names, Digest.validate d = .ok () := by
      rw [← hall]
      exact fun d => validate_of_mem_leading
    have happend : removeFrom [] (names ++ []) s = _ := removeFrom_append hopen hvalid
    rw [List.append_nil] at happend
    refine ⟨_, ?_, .inl ⟨hvalid, rfl⟩⟩
    rw [removeAll, happend, hall, removeFrom]
    simp
  · refine ⟨.notDigest e, ?_, .inr ⟨⟨b, by rw [hsplit]; simp, by simp [hb]⟩, e, rfl⟩⟩
    rw [removeAll]
    conv => lhs; rw [hsplit]
    rw [removeFrom_append hopen fun d => validate_of_mem_leading, removeFrom, hb]

end Store

namespace Session

variable {m : Type → Type} [Monad m] [LawfulMonad m] {s : Store} {names : List Bytes}

/-- The command gives what the removal comes to and keeps the store that it leaves. -/
theorem run_storeRemove (hnames : names ≠ []) :
    (storeRemove names : ExceptT Failure (StateT Store m) Unit).run.run s =
      pure (match (s.removeAll names).1 with
        | .done => .ok ()
        | .notDigest e => .error (.usage (.digest e))
        | .failed es => .error (.removal es), (s.removeAll names).2) := by
  have hlift : (modifyGet (Store.removeAll names) : ExceptT Failure (StateT Store m) _) =
      ExceptT.lift (modifyGet (Store.removeAll names)) := rfl
  rw [storeRemove, if_neg hnames, hlift]
  cases hremoval : (s.removeAll names).1 <;> simp [hremoval]

/-- After a removal from an open store the entries under the leading digests are gone and the others
are as they were. It succeeds exactly if all arguments are digests, no two of them are the same and
all had entries. If an argument is no digest, that is told as a usage error. Otherwise a failure
names each digest that was not there when its turn came, because it had no entry or had been given
before. -/
theorem remove_exactly (hopen : s.isOpen = true) (hnames : names ≠ []) :
    let ds := names.takeWhile fun d => Digest.validate d = .ok ()
    ∃ result after,
      (storeRemove names : ExceptT Failure (StateT Store m) Unit).run.run s =
        pure (result, after) ∧
      after.table.keys = s.table.keys.filter (· ∉ ds) ∧
      (∀ d, after.table.get? d = if d ∈ ds then none else s.table.get? d) ∧
      after.isOpen = true ∧ after.counters = s.counters ∧
      (result = .ok () ↔ (∀ d ∈ names, Digest.validate d = .ok ()) ∧ names.Nodup ∧
        ∀ d ∈ names, (s.table.get? d).isSome) ∧
      ((∃ d ∈ names, Digest.validate d ≠ .ok ()) → ∃ e, result = .error (.usage (.digest e))) ∧
      ((∀ d ∈ names, Digest.validate d = .ok ()) → result ≠ .ok () →
        ∃ es, result = .error (.removal es) ∧ es ≠ [] ∧ ∀ e, e ∈ es ↔ ∃ before d after,
          names = before ++ d :: after ∧ (d ∈ before ∨ s.table.get? d = none) ∧
            e = .notFound d) := by
  intro ds
  obtain ⟨removal, hremoval, hresult⟩ := Store.removeAll_eq hopen names
  rw [run_storeRemove hnames, hremoval]
  refine ⟨_, _, rfl, Table.keys_eraseAll ds s.table, Table.get?_eraseAll ds s.table, hopen, rfl, ?_⟩
  rcases hresult with ⟨hvalid, rfl⟩ | ⟨⟨b, hb, hbad⟩, e, rfl⟩
  · have hdone : Table.missing names s.table = [] ↔ _ := Table.missing_eq_nil_iff
    have hdigest : ¬ ∃ d ∈ names, Digest.validate d ≠ .ok () :=
      fun ⟨d, hd, hbad⟩ => hbad (hvalid d hd)
    by_cases hnone : Table.missing names s.table = []
    · rw [if_pos hnone]
      refine ⟨iff_of_true rfl ⟨hvalid, hdone.mp hnone⟩, fun h => absurd h hdigest, ?_⟩
      exact fun _ hfailed => absurd rfl hfailed
    · rw [if_neg hnone]
      refine ⟨iff_of_false (by simp) fun h => hnone (hdone.mpr h.2), fun h => absurd h hdigest, ?_⟩
      refine fun _ _ => ⟨_, rfl, by simpa using hnone, fun e => ?_⟩
      simp only [List.mem_map, Table.mem_missing_iff]
      constructor
      · rintro ⟨d, ⟨before, after, hsplit, hgone⟩, rfl⟩
        exact ⟨before, d, after, hsplit, hgone, rfl⟩
      · rintro ⟨before, d, after, hsplit, hgone, rfl⟩
        exact ⟨d, ⟨before, after, hsplit, hgone⟩, rfl⟩
  · refine ⟨iff_of_false (by simp) fun ⟨hvalid, _⟩ => hbad (hvalid b hb), fun _ => ⟨e, rfl⟩, ?_⟩
    exact fun hvalid => absurd (hvalid b hb) hbad

/-- A digest without an entry, by another algorithm, and one given twice do not keep the last one
from being removed; an argument that is no digest does. -/
theorem remove_exactly_mixed :
    let a := Digest.write (List.replicate 64 48)
    let b := Digest.write (List.replicate 64 49)
    let c := Bytes.ofString "sha512:" ++ List.replicate 128 50
    let s : Store := { table := [(a, [1]), (b, [2])] }
    s.isOpen = true ∧
      (∃ es after, (storeRemove [c, a, a, b] : ExceptT Failure (StateT Store Id) Unit).run.run s =
        pure (.error (.removal es), after) ∧ after.table.keys = [] ∧
          .notFound c ∈ es ∧ .notFound a ∈ es) ∧
      (∃ e after, (storeRemove [a, [], b] : ExceptT Failure (StateT Store Id) Unit).run.run s =
        pure (.error (.usage (.digest e)), after) ∧ after.table.keys = [b]) := by
  intro a b c s
  have ha : Digest.validate a = .ok () := Digest.validate_write rfl (by decide)
  have hb : Digest.validate b = .ok () := Digest.validate_write rfl (by decide)
  have hc : Digest.validate c = .ok () := by decide +kernel
  have hnone : Digest.validate [] = .error .format := rfl
  have hab : a ≠ b := by decide
  have hac : a ≠ c := by decide
  have hbc : b ≠ c := by decide
  clear_value a b c
  refine ⟨rfl, ?_, ?_⟩
  · obtain ⟨result, after, hrun, hkeys, -, -, -, hdone, -, hfailed⟩ :=
      remove_exactly (m := Id) (s := s) rfl (List.cons_ne_nil c [a, a, b])
    have hvalid : ∀ d ∈ [c, a, a, b], Digest.validate d = .ok () := by simp [ha, hb, hc]
    obtain ⟨es, rfl, -, hes⟩ := hfailed hvalid fun hok => by simpa [hac] using (hdone.mp hok).2.1
    refine ⟨es, after, hrun, ?_, ?_, ?_⟩
    · rw [hkeys]
      simp [s, Table.keys, ha, hb, hc]
    · exact (hes _).mpr ⟨[], c, [a, a, b], rfl, .inr (by simp [s, Table.get?, hac, hbc]), rfl⟩
    · exact (hes _).mpr ⟨[c, a], a, [b], rfl, .inl (by simp), rfl⟩
  · obtain ⟨result, after, hrun, hkeys, -, -, -, -, husage, -⟩ :=
      remove_exactly (m := Id) (s := s) rfl (List.cons_ne_nil a [[], b])
    obtain ⟨e, rfl⟩ := husage ⟨[], by simp, by simp [hnone]⟩
    refine ⟨e, after, hrun, ?_⟩
    rw [hkeys]
    simp [s, Table.keys, ha, hnone, Ne.symm hab]

end Session

end Arbor
