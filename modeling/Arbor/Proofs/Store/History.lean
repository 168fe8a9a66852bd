import Arbor.Proofs.Store.Entry
import Arbor.Proofs.Store.Outcome
import Arbor.Proofs.Store.Table

/-! The answers that a store has given say which digests it holds. -/
namespace Arbor.Store

abbrev Event := Request × Answer

/-- Whether a request keeps a store open and does not go past it. -/
def Request.isRegular : Request → Bool
  | put _ | get _ | has _ | delete _ | list => true
  | close | reopen | overwrite _ _ => false

/-- Some put has returned the digest, and no delete of it has succeeded since. -/
def Stored (history : List Event) (d : Bytes) : Prop :=
  ∃ (before : List Event) (t : Tree) (after : List Event),
    history = before ++ (.put t, .digest d) :: after ∧ (.delete d, .done) ∉ after

theorem not_stored_nil (d : Bytes) : ¬ Stored [] d := by
  rintro ⟨before, t, after, hsplit, -⟩
  cases before <;> cases hsplit

/-- The last event decides about the digest that it names, and leaves the others alone. -/
theorem stored_append_iff {history : List Event} {e : Event} {d : Bytes} :
    Stored (history ++ [e]) d ↔
      (∃ t, e = (.put t, .digest d)) ∨ (Stored history d ∧ e ≠ (.delete d, .done)) := by
  constructor
  · rintro ⟨before, t, after, hsplit, hafter⟩
    rcases List.eq_nil_or_concat after with rfl | ⟨rest, last, rfl⟩
    · obtain ⟨-, he⟩ := List.append_inj' hsplit rfl
      exact .inl ⟨t, List.singleton_inj.mp he⟩
    · rw [List.concat_eq_append, ← List.cons_append, ← List.append_assoc] at hsplit
      obtain ⟨hhistory, he⟩ := List.append_inj' hsplit rfl
      rw [List.concat_eq_append, List.mem_append, not_or, List.mem_singleton] at hafter
      rw [List.singleton_inj] at he
      exact .inr ⟨⟨before, t, rest, hhistory, hafter.1⟩, fun hdelete => hafter.2 (hdelete ▸ he)⟩
  · rintro (⟨t, rfl⟩ | ⟨⟨before, t, after, rfl, hafter⟩, he⟩)
    · exact ⟨history, t, [], rfl, List.not_mem_nil⟩
    · refine ⟨before, t, after ++ [e], by simp, ?_⟩
      rw [List.mem_append, List.mem_singleton, not_or]
      exact ⟨hafter, Ne.symm he⟩

section Step

/-- What a request does to the entries, told by the answer to it. -/
inductive Effect (z : Zstd.Coder) (limit : Int) (table : Table) : Event → Table → Prop
  | stored {t : Tree} {d data : Bytes} : entryOf z limit t = .ok (d, data) →
      Effect z limit table (.put t, .digest d) (insertNew table d data)
  | deleted {d : Bytes} : (table.get? d).isSome →
      Effect z limit table (.delete d, .done) (table.erase d)
  | kept {e : Event} : (∀ t d, e ≠ (.put t, .digest d)) → (∀ d, e ≠ (.delete d, .done)) →
      Effect z limit table e table

variable {limit : Int} {s : Store} {r : Request}

theorem Outcome.effect {a : Answer} {after : Store} (h : Outcome limit s r a after)
    (hr : r.isRegular = true) : Effect s.coder limit s.table (r, a) after.table := by
  cases h with
  | stored hopen hentry => exact .stored hentry
  | deleted hopen hdigest hd => exact .deleted hd
  | lookup hdigest ha => exact .kept (by simp) (by simp)
  | found hopen hdigest => exact .kept (by simp) (by simp)
  | listed hopen => exact .kept (by simp) (by simp)
  | failed he => exact .kept (by simp) (by simp)
  | closed => cases hr
  | reopened => cases hr
  | overwritten hopen hkey => cases hr

/-- A regular request keeps the store open, and changes entries only by an answer that says so. -/
theorem step_effect (hopen : s.isOpen = true) (hr : r.isRegular = true) :
    (s.step limit r).2.isOpen = true ∧
      Effect s.coder limit s.table (r, (s.step limit r).1) (s.step limit r).2.table := by
  have houtcome := step_outcome limit s r
  refine ⟨houtcome.isOpen hopen ?_, houtcome.effect hr⟩
  rintro rfl
  cases hr

end Step

section Table

variable {table : Table} {key value d data : Bytes}

theorem isSome_get?_insertNew :
    ((insertNew table key value).get? d).isSome ↔ key = d ∨ (table.get? d).isSome := by
  by_cases hkey : (table.get? key).isSome
  · rw [insertNew, if_pos hkey]
    constructor
    · exact .inr
    · rintro (rfl | hd)
      · exact hkey
      · exact hd
  · rw [insertNew, if_neg hkey, Table.get?_insert]
    split
    next heq => simp [heq]
    next hne => simp [hne]

theorem get?_insertNew_eq_some (h : (insertNew table key value).get? d = some data) :
    table.get? d = some data ∨ (key = d ∧ value = data) := by
  by_cases hkey : (table.get? key).isSome
  · rw [insertNew, if_pos hkey] at h
    exact .inl h
  · rw [insertNew, if_neg hkey, Table.get?_insert] at h
    split at h
    next heq => exact .inr ⟨heq, Option.some.inj h⟩
    next hne => exact .inl h

theorem ascending_insertNew (h : table.Ascending) : (insertNew table key value).Ascending := by
  unfold insertNew
  split
  · exact h
  · exact h.insert key value

end Table

/-- The entries of a table are those that the history tells: each was written for a tree that was
put, and every put that returned a digest had a tree to write. -/
structure Reflects (z : Zstd.Coder) (limit : Int) (history : List Event) (table : Table) : Prop where
  ascending : table.Ascending
  stored : ∀ d, (table.get? d).isSome ↔ Stored history d
  entry : ∀ {d data}, table.get? d = some data →
    ∃ t, (.put t, .digest d) ∈ history ∧ entryOf z limit t = .ok (d, data)
  returned : ∀ {t d}, (.put t, .digest d) ∈ history → ∃ data, entryOf z limit t = .ok (d, data)

namespace Reflects

variable {z : Zstd.Coder} {limit : Int} {history : List Event} {table : Table}

theorem empty : Reflects z limit [] .empty where
  ascending := List.Pairwise.nil
  stored d := iff_of_false Bool.false_ne_true (not_stored_nil d)
  entry h := by cases h
  returned h := by cases h

/-- One more event: only a put that has returned a digest may add an entry, and it adds its own. -/
theorem extend {e : Event} {after : Table} (h : Reflects z limit history table)
    (hascending : after.Ascending)
    (hstored : ∀ d, (after.get? d).isSome ↔ Stored (history ++ [e]) d)
    (hentry : ∀ d data, after.get? d = some data → table.get? d = some data ∨
      ∃ t, e = (.put t, .digest d) ∧ entryOf z limit t = .ok (d, data))
    (hreturned : ∀ t d, e = (.put t, .digest d) → ∃ data, entryOf z limit t = .ok (d, data)) :
    Reflects z limit (history ++ [e]) after where
  ascending := hascending
  stored := hstored
  entry hget := by
    rcases hentry _ _ hget with hold | ⟨t, rfl, hnew⟩
    · obtain ⟨t, ht, hold⟩ := h.entry hold
      exact ⟨t, List.mem_append_left _ ht, hold⟩
    · exact ⟨t, List.mem_append_right _ List.mem_cons_self, hnew⟩
  returned hmem := by
    rcases List.mem_append.mp hmem with hold | hnew
    · exact h.returned hold
    · exact hreturned _ _ (List.mem_singleton.mp hnew).symm

theorem put {t : Tree} {d data : Bytes} (h : Reflects z limit history table)
    (hentry : entryOf z limit t = .ok (d, data)) :
    Reflects z limit (history ++ [(.put t, .digest d)]) (insertNew table d data) := by
  apply h.extend (ascending_insertNew h.ascending)
  · intro c
    rw [isSome_get?_insertNew, h.stored, stored_append_iff]
    simp
  · intro c value hget
    rcases get?_insertNew_eq_some hget with hold | ⟨rfl, rfl⟩
    · exact .inl hold
    · exact .inr ⟨t, rfl, hentry⟩
  · intro u c heq
    cases heq
    exact ⟨data, hentry⟩

theorem delete {d : Bytes} (h : Reflects z limit history table) :
    Reflects z limit (history ++ [(.delete d, .done)]) (table.erase d) := by
  apply h.extend (h.ascending.erase d)
  · intro c
    rw [Table.get?_erase, stored_append_iff, ← h.stored]
    split
    next heq => simp [heq]
    next hne => simp [hne]
  · intro c value hget
    rw [Table.get?_erase] at hget
    split at hget
    next heq => cases hget
    next hne => exact .inl hget
  · intro u c heq
    cases heq

/-- One step: whatever the effect of an event, the table reflects the history with it. -/
theorem step {after : Table} {e : Event} (h : Reflects z limit history table)
    (heffect : Effect z limit table e after) : Reflects z limit (history ++ [e]) after := by
  cases heffect with
  | stored hentry => exact h.put hentry
  | deleted hd => exact h.delete
  | kept hput hdelete =>
      apply h.extend h.ascending
      · intro d
        rw [h.stored, stored_append_iff]
        simp [hput, hdelete]
      · intro d data hget
        exact .inl hget
      · intro t d heq
        exact absurd heq (hput t d)

/-- A whole run, by induction over the requests. -/
theorem run {s : Store} (hopen : s.isOpen = true) (hcoder : s.coder = z)
    (h : Reflects z limit history s.table)
    {rs : List Request} (hrs : ∀ r ∈ rs, r.isRegular = true) :
    (s.run (rs.map (limit, ·))).2.isOpen = true ∧ (s.run (rs.map (limit, ·))).2.coder = z ∧
      Reflects z limit (history ++ rs.zip (s.run (rs.map (limit, ·))).1)
        (s.run (rs.map (limit, ·))).2.table := by
  induction rs generalizing history s with
  | nil =>
      rw [List.zip_nil_left, List.append_nil]
      exact ⟨hopen, hcoder, h⟩
  | cons r rs ih =>
      obtain ⟨hstep, heffect⟩ := step_effect hopen (hrs r List.mem_cons_self)
      rw [hcoder] at heffect
      have hrest := ih hstep ((step_outcome limit s r).coder_eq.trans hcoder) (h.step heffect)
        fun q hq => hrs q (List.mem_cons_of_mem r hq)
      rw [List.append_assoc] at hrest
      exact hrest

end Reflects

end Arbor.Store
