import Arbor.Proofs.Tree.Order
import Arbor.Store.Table

/-! The keys of a table stay strictly ascending, so no key occurs twice. -/
namespace Arbor

theorem compareBytes_lt_iff {a b : Bytes} : compareBytes a b = .lt ↔ a < b := by
  induction a generalizing b with
  | nil => cases b <;> simp [compareBytes]
  | cons x a ih =>
      cases b with
      | nil => simp [compareBytes]
      | cons y b =>
          rw [compareBytes, compareByte_then, Ordering.then_eq_lt, Std.compare_eq_lt,
            Std.LawfulEqOrd.compare_eq_iff_eq, ih, List.cons_lt_cons_iff]

theorem compareBytes_gt_iff {a b : Bytes} : compareBytes a b = .gt ↔ b < a := by
  rw [← compareBytes_lt_iff, compareBytes_eq, compareBytes_eq]
  exact Std.OrientedCmp.gt_iff_lt

theorem compareBytes_eq_iff {a b : Bytes} : compareBytes a b = .eq ↔ a = b := by
  rw [compareBytes_eq]
  exact Std.LawfulEqOrd.compare_eq_iff_eq

namespace Table

theorem get?_insert (t : Table) (key value d : Bytes) :
    (t.insert key value).get? d = if key = d then some value else t.get? d := by
  induction t with
  | nil => rfl
  | cons entry rest ih =>
      obtain ⟨k, v⟩ := entry
      rw [insert]
      split
      next => rfl
      next heq =>
        rw [compareBytes_eq_iff] at heq
        subst heq
        simp only [get?]
        split <;> rfl
      next hgt =>
        have hne : k ≠ key := by
          rintro rfl
          exact List.lt_irrefl _ (compareBytes_gt_iff.mp hgt)
        simp only [get?, ih]
        by_cases hk : k = d
        · subst hk
          rw [if_pos rfl, if_neg (Ne.symm hne), if_pos rfl]
        · rw [if_neg hk, if_neg hk]

theorem get?_erase (t : Table) (key d : Bytes) :
    (t.erase key).get? d = if key = d then none else t.get? d := by
  induction t with
  | nil => simp [erase, get?]
  | cons entry rest ih =>
      obtain ⟨k, v⟩ := entry
      rw [erase] at ih ⊢
      by_cases hk : k = key
      · subst hk
        rw [List.filter_cons_of_neg (by simp), ih]
        simp only [get?]
        split <;> rfl
      · rw [List.filter_cons_of_pos (by simpa using hk)]
        simp only [get?, ih]
        by_cases hd : k = d
        · subst hd
          rw [if_pos rfl, if_neg (Ne.symm hk), if_pos rfl]
        · rw [if_neg hd, if_neg hd]

theorem mem_keys_iff (t : Table) (d : Bytes) : d ∈ t.keys ↔ (t.get? d).isSome := by
  induction t with
  | nil => simp [keys, get?]
  | cons entry rest ih =>
      obtain ⟨k, v⟩ := entry
      rw [keys, List.map_cons, List.mem_cons, ← keys, ih, get?]
      split
      next hk => simp [hk]
      next hk =>
        constructor
        · rintro (rfl | hd)
          · exact absurd rfl hk
          · exact hd
        · exact .inr

def Ascending (t : Table) : Prop := t.keys.Pairwise (· < ·)

theorem Ascending.insert {t : Table} (h : t.Ascending) (key value : Bytes) :
    (t.insert key value).Ascending := by
  induction t with
  | nil => exact List.pairwise_singleton _ _
  | cons entry rest ih =>
      obtain ⟨k, v⟩ := entry
      obtain ⟨hfirst, hrest⟩ := List.pairwise_cons.mp h
      rw [Table.insert]
      split
      next hlt =>
        have hkey := compareBytes_lt_iff.mp hlt
        refine List.pairwise_cons.mpr ⟨?_, h⟩
        intro d hd
        rcases List.mem_cons.mp hd with rfl | hd
        · exact hkey
        · exact List.lt_trans hkey (hfirst d hd)
      next heq =>
        rw [compareBytes_eq_iff] at heq
        subst heq
        exact h
      next hgt =>
        refine List.pairwise_cons.mpr ⟨?_, ih hrest⟩
        intro d hd
        have hd : d ∈ (Table.insert key value rest).keys := hd
        rw [mem_keys_iff, get?_insert] at hd
        split at hd
        next hkey => exact hkey ▸ compareBytes_gt_iff.mp hgt
        next hkey => exact hfirst d ((mem_keys_iff rest d).mpr hd)

theorem Ascending.erase {t : Table} (h : t.Ascending) (key : Bytes) : (t.erase key).Ascending :=
  List.Pairwise.sublist (List.filter_sublist.map _) h

end Table

end Arbor
