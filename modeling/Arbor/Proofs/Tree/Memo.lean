import Arbor.Proofs.Tree.Place

/-! A table of values that a pass keeps changes nothing of what the pass gives. -/
namespace Arbor

/-- Values under the paths of nodes, the last one found in front. -/
abbrev Memo (α : Type) := List (Path × α)

namespace Marked

variable {α : Type}

mutual

/-- The values of a tree at a path, found after those in `memo`. -/
def entriesOnto (p : Path) (memo : Memo α) : Marked α → Memo α
  | node v _ ms => (p, v) :: entriesAllOnto p 0 memo ms

def entriesAllOnto (p : Path) (i : Nat) (memo : Memo α) : List (Marked α) → Memo α
  | [] => memo
  | m :: ms => entriesAllOnto p (i + 1) (entriesOnto (p ++ [i]) memo m) ms

end

def entries (m : Marked α) : Memo α := entriesOnto [] [] m

theorem valuesOnto_eq (m : Marked α) (rest : List α) : valuesOnto rest m = m.values ++ rest := by
  refine @Marked.rec α (fun m => ∀ rest, valuesOnto rest m = m.values ++ rest)
    (fun ms => ∀ rest, valuesAllOnto rest ms = ms.flatMap values ++ rest) ?_ ?_ ?_ m rest
  · intro v h ms hms rest
    rw [values, valuesOnto, valuesOnto, hms, hms []]
    simp
  · intro rest
    rfl
  · intro m ms hm hms rest
    rw [valuesAllOnto, hms, hm, List.flatMap_cons, List.append_assoc]

theorem values_node (v : α) (h : Head) (ms : List (Marked α)) :
    (node v h ms).values = v :: ms.flatMap values := by
  have hall : ∀ ms : List (Marked α), valuesAllOnto [] ms = ms.flatMap values := by
    intro ms
    induction ms with
    | nil => rfl
    | cons m ms ih => rw [valuesAllOnto, valuesOnto_eq, ih, List.flatMap_cons]
  rw [values, valuesOnto, hall]

theorem mem_entriesAllOnto_cons {p q : Path} {i : Nat} {memo : Memo α} {v : α} {m : Marked α}
    {ms : List (Marked α)}
    (hm : ∀ p memo, (q, v) ∈ entriesOnto p memo m ↔
      (q, v) ∈ memo ∨ ∃ r, q = p ++ r ∧ m.valueAt? r = some v)
    (hms : ∀ i memo, (q, v) ∈ entriesAllOnto p i memo ms ↔
      (q, v) ∈ memo ∨ ∃ j r, q = p ++ (i + j) :: r ∧ (ms[j]?.bind (·.valueAt? r)) = some v) :
    (q, v) ∈ entriesAllOnto p i memo (m :: ms) ↔
      (q, v) ∈ memo ∨
        ∃ j r, q = p ++ (i + j) :: r ∧ ((m :: ms)[j]?.bind (·.valueAt? r)) = some v := by
  rw [entriesAllOnto, hms, hm, or_assoc]
  refine or_congr_right ?_
  constructor
  · rintro (⟨r, rfl, hr⟩ | ⟨j, r, rfl, hr⟩)
    · exact ⟨0, r, by simp, hr⟩
    · exact ⟨j + 1, r, by rw [Nat.add_assoc, Nat.add_comm 1 j], hr⟩
  · rintro ⟨j, r, rfl, hr⟩
    cases j with
    | zero => exact .inl ⟨r, by simp, hr⟩
    | succ j => exact .inr ⟨j, r, by rw [Nat.add_assoc, Nat.add_comm 1 j], hr⟩

/-- The entries of a tree at a path are the values of its nodes, each under the path to it. -/
theorem mem_entriesOnto_iff (m : Marked α) {q : Path} {v : α} (p : Path) (memo : Memo α) :
    (q, v) ∈ entriesOnto p memo m ↔
      (q, v) ∈ memo ∨ ∃ r, q = p ++ r ∧ m.valueAt? r = some v := by
  refine @Marked.rec α
    (fun m => ∀ p memo, (q, v) ∈ entriesOnto p memo m ↔
      (q, v) ∈ memo ∨ ∃ r, q = p ++ r ∧ m.valueAt? r = some v)
    (fun ms => ∀ p i memo, (q, v) ∈ entriesAllOnto p i memo ms ↔
      (q, v) ∈ memo ∨ ∃ j r, q = p ++ (i + j) :: r ∧ (ms[j]?.bind (·.valueAt? r)) = some v)
    ?_ ?_ ?_ m p memo
  · intro w h ms hms p memo
    rw [entriesOnto, List.mem_cons, hms, or_left_comm]
    refine or_congr_right ?_
    constructor
    · rintro (heq | ⟨j, r, rfl, hr⟩)
      · obtain ⟨rfl, rfl⟩ := Prod.mk.inj heq
        exact ⟨[], by simp, rfl⟩
      · exact ⟨j :: r, by simp, by rwa [valueAt?_cons]⟩
    · rintro ⟨r, rfl, hr⟩
      cases r with
      | nil =>
          obtain rfl : w = v := Option.some.inj hr
          exact .inl (by simp)
      | cons j r =>
          rw [valueAt?_cons] at hr
          exact .inr ⟨j, r, by simp, hr⟩
  · intro p i memo
    simp [entriesAllOnto]
  · intro m ms hm hms p i memo
    exact mem_entriesAllOnto_cons hm (hms p)

theorem mem_entries_iff {m : Marked α} {p : Path} {v : α} :
    (p, v) ∈ m.entries ↔ m.valueAt? p = some v := by
  simp [entries, mem_entriesOnto_iff]

end Marked

namespace Tree

variable {α : Type} {combine : Head → List α → α} {operation : Operation} {limit : Int}

mutual

/-- The value of a tree at a path. If there is a table, the values of its nodes are put into it. -/
def recordAt (combine : Head → List α → α) (operation : Operation) (limit : Int) (p : Path)
    (memo : Option (Memo α)) : Tree → Except Fault (α × Option (Memo α))
  | absent => .error (.absentTree operation)
  | node h cs => do
    checkDepth limit p.length
    check h.kind cs
    let (vs, memo) ← recordAll combine operation limit p 0 memo cs
    return (combine h vs, memo.map ((p, combine h vs) :: ·))

def recordAll (combine : Head → List α → α) (operation : Operation) (limit : Int) (p : Path)
    (i : Nat) (memo : Option (Memo α)) : List Tree → Except Fault (List α × Option (Memo α))
  | [] => .ok ([], memo)
  | t :: ts => do
    let (v, memo) ← recordAt combine operation limit (p ++ [i]) memo t
    let (vs, memo) ← recordAll combine operation limit p (i + 1) memo ts
    return (v :: vs, memo)

end

theorem recordAll_eq {p : Path} {cs : List Tree}
    (hcs : ∀ c ∈ cs, ∀ i memo, recordAt combine operation limit (p ++ [i]) memo c =
      (markAt combine operation limit (p.length + 1) c).map
        fun m => (m.value, memo.map (Marked.entriesOnto (p ++ [i]) · m)))
    (i : Nat) (memo : Option (Memo α)) :
    recordAll combine operation limit p i memo cs =
      (markAll combine operation limit (p.length + 1) cs).map
        fun ms => (ms.map Marked.value, memo.map (Marked.entriesAllOnto p i · ms)) := by
  induction cs generalizing i memo with
  | nil => cases memo <;> rfl
  | cons c cs ih =>
      obtain ⟨hc, hcs⟩ := List.forall_mem_cons.mp hcs
      rw [recordAll, hc, markAll]
      cases markAt combine operation limit (p.length + 1) c with
      | error f => rfl
      | ok m =>
          simp only [Except.map, Except.bind, bind, ih hcs]
          cases markAll combine operation limit (p.length + 1) cs with
          | error f => rfl
          | ok ms => cases memo <;> rfl

/-- Recording and marking are one pass: they fail alike, the value is that of the root, and the
table, if there is one, has got the entries of the marked tree. -/
theorem recordAt_eq (t : Tree) (p : Path) (memo : Option (Memo α)) :
    recordAt combine operation limit p memo t =
      (markAt combine operation limit p.length t).map
        fun m => (m.value, memo.map (Marked.entriesOnto p · m)) := by
  induction t generalizing p memo with
  | absent => rfl
  | node h cs ih =>
      have hcs : ∀ c ∈ cs, ∀ i memo, recordAt combine operation limit (p ++ [i]) memo c =
          (markAt combine operation limit (p.length + 1) c).map
            fun m => (m.value, memo.map (Marked.entriesOnto (p ++ [i]) · m)) := by
        intro c hc i memo
        rw [ih c hc, List.length_append, List.length_singleton]
      rw [recordAt, markAt, recordAll_eq hcs]
      cases checkDepth limit p.length with
      | error f => rfl
      | ok u =>
          cases check h.kind cs with
          | error f => rfl
          | ok u =>
              cases markAll combine operation limit (p.length + 1) cs with
              | error f => rfl
              | ok ms => cases memo <;> rfl

/-- A pass that succeeds on a tree succeeds on each of its subtrees, at whatever depth they stand,
and what it has put down for a subtree is the value that it gives for it alone. -/
theorem markAt_of_at? (empty : α) {t x : Tree} {m : Marked α} {p : Path}
    (hm : markAt combine operation limit 0 t = .ok m) (ht : t.validate limit = .ok ())
    (hx : t.at? p = some x) :
    ∃ n, markAt combine operation limit 0 x = .ok n ∧ m.valueAt? p = some n.value := by
  have hvalid := validate_of_validateAt (validateAt_of_at? ht hx)
  obtain ⟨n, hn⟩ : ∃ n, markAt combine operation limit 0 x = .ok n := markAt_succeeds hvalid
  refine ⟨n, hn, ?_⟩
  rw [valueAt?_of_markAt empty hm, hx, (markAt_eq_ok empty hn).2]
  rfl

theorem values_of_markAt (empty : α) {depth : Nat} {t : Tree} {m : Marked α}
    (h : markAt combine operation limit depth t = .ok m) :
    m.values = t.nodes.map (fold empty combine) := by
  induction t generalizing depth m with
  | absent => cases h
  | node l cs ih =>
      have hroot := (markAt_eq_ok empty h).2
      rw [markAt, check_bind_eq_ok_iff, check_bind_eq_ok_iff] at h
      obtain ⟨-, -, h⟩ := h
      obtain ⟨ms, hms, h⟩ := bind_eq_ok_iff.mp h
      cases h
      have hcs : cs.map (fun c => c.nodes.map (fold empty combine)) = ms.map Marked.values :=
        map_eq_of_forall₂ (forall₂_of_markAll hms) fun c hc m hm => (ih c hc hm).symm
      rw [Marked.values_node, nodes_node, List.map_cons, List.map_flatMap, ← hroot,
        List.flatMap_def, List.flatMap_def, hcs]
      rfl

end Tree

end Arbor
