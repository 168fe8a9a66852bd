import Arbor.Store.Request

/-! What a request can do to a store, said once for all that a run keeps. -/
namespace Arbor.Store

/-- The answer to a request and the store after it. Only a lookup reports damage, and nothing but a
lookup changes the store when it fails. -/
inductive Outcome (limit : Int) (s : Store) : Request → Answer → Store → Prop
  | stored {t : Tree} {d data : Bytes} : s.isOpen = true → entryOf s.coder limit t = .ok (d, data) →
      Outcome limit s (.put t) (.digest d)
        { s with table := insertNew s.table d data, counters := s.counters.countPut }
  | lookup {d : Bytes} {a : Answer} : Digest.validate d = .ok () →
      a = answer .tree (s.fetch limit d) →
      Outcome limit s (.get d) a
        { s with counters := s.counters.countLookup (lookupOf (s.fetch limit d)) }
  | found {d : Bytes} : s.isOpen = true → Digest.validate d = .ok () →
      Outcome limit s (.has d) (.found (s.table.get? d).isSome) s
  | deleted {d : Bytes} : s.isOpen = true → Digest.validate d = .ok () →
      (s.table.get? d).isSome →
      Outcome limit s (.delete d) .done { s with table := s.table.erase d }
  | listed : s.isOpen = true → Outcome limit s .list (.digests s.table.keys) s
  | closed : Outcome limit s .close .done s.close
  | reopened : Outcome limit s .reopen .done s.reopen
  | overwritten {key data : Bytes} : s.isOpen = true → key ≠ [] →
      Outcome limit s (.overwrite key data) .done { s with table := s.table.insert key data }
  | failed {r : Request} {e : StoreError} : (∀ d damage, e ≠ .corrupt d damage) →
      Outcome limit s r (.failed e) s

theorem ne_corrupt_of_entryOf {z : Zstd.Coder} {limit : Int} {t : Tree} {e : StoreError}
    (h : entryOf z limit t = .error e) (d : Bytes) (damage : Damage) : e ≠ .corrupt d damage := by
  rw [entryOf] at h
  cases hdigest : t.digest limit with
  | error f =>
      rw [hdigest] at h
      cases h
      simp
  | ok d =>
      cases hwrite : Codec.writeWith z limit writing t with
      | error f =>
          rw [hdigest, hwrite] at h
          cases h
          simp
      | ok data =>
          rw [hdigest, hwrite] at h
          cases h

theorem step_outcome (limit : Int) (s : Store) (r : Request) :
    Outcome limit s r (s.step limit r).1 (s.step limit r).2 := by
  cases r with
  | put t =>
      rw [step, put]
      cases hentry : entryOf s.coder limit t with
      | error e => exact .failed (ne_corrupt_of_entryOf hentry)
      | ok entry =>
          dsimp only
          split
          next hopen => exact .stored hopen hentry
          next => exact .failed (by simp)
  | get d =>
      rw [step, get]
      cases hdigest : Digest.validate d with
      | error e => exact .failed (by simp)
      | ok u => exact .lookup hdigest rfl
  | has d =>
      rw [step, has]
      cases hdigest : Digest.validate d with
      | error e => exact .failed (by simp)
      | ok u =>
          by_cases hopen : s.isOpen = true
          · rw [if_pos hopen]
            exact .found hopen hdigest
          · rw [if_neg hopen]
            exact .failed (by simp)
  | delete d =>
      rw [step, delete]
      cases hdigest : Digest.validate d with
      | error e => exact .failed (by simp)
      | ok u =>
          dsimp only
          split
          next hopen =>
            split
            next hd => exact .deleted hopen hdigest hd
            next => exact .failed (by simp)
          next => exact .failed (by simp)
  | list =>
      rw [step, list]
      split
      next hopen => exact .listed hopen
      next => exact .failed (by simp)
  | close => exact .closed
  | reopen => exact .reopened
  | overwrite key data =>
      dsimp only [step, overwrite]
      split
      next => exact .failed (by simp)
      next hopen =>
        split
        next => exact .failed (by simp)
        next hkey => exact .overwritten (by simpa using hopen) hkey

namespace Outcome

variable {limit : Int} {s after : Store} {r : Request} {a : Answer}

theorem coder_eq (h : Outcome limit s r a after) : after.coder = s.coder := by
  cases h <;> rfl

theorem isOpen (h : Outcome limit s r a after) (hopen : s.isOpen = true) (hr : r ≠ .close) :
    after.isOpen = true := by
  cases h with
  | closed => exact absurd rfl hr
  | reopened => rfl
  | _ => exact hopen

theorem table_of_failed {e : StoreError} (h : Outcome limit s r a after) (ha : a = .failed e) :
    after.table = s.table := by
  cases h with
  | stored hopen hentry => cases ha
  | deleted hopen hdigest hd => cases ha
  | overwritten hopen hkey => cases ha
  | _ => rfl

end Outcome

end Arbor.Store
