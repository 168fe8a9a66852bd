import Arbor.Toml.Scope
import Mathlib.Data.List.Basic

/-! The headers that are written repeat one name. -/
namespace Arbor.Toml.Scope

def get? (s : Scope) (name : Bytes) : Option Scope := s.names.lookup name

variable {name : Bytes} {s : Scope}

section Names

variable {f : Option Scope → Option Scope} {v : Scope}

theorem lookup_alterName {ns : List (Bytes × Scope)} (h : f (ns.lookup name) = some v) :
    ∃ ns', alterName name f ns = some ns' ∧ ns'.lookup name = some v ∧
      ∀ other, other ≠ name → ns'.lookup other = ns.lookup other := by
  induction ns with
  | nil =>
      refine ⟨[(name, v)], ?_, by simp, ?_⟩
      · rw [List.lookup_nil] at h
        rw [alterName, h]
        rfl
      · intro other hother
        rw [List.lookup_cons, beq_false_of_ne hother]
  | cons e ns ih =>
      obtain ⟨n, below⟩ := e
      by_cases hn : n = name
      · subst hn
        rw [List.lookup_cons_self] at h
        refine ⟨(n, v) :: ns, ?_, List.lookup_cons_self, ?_⟩
        · rw [alterName, if_pos rfl, h]
          rfl
        · intro other hother
          rw [List.lookup_cons, List.lookup_cons, beq_false_of_ne hother]
      · have hne : name ≠ n := Ne.symm hn
        rw [List.lookup_cons, beq_false_of_ne hne] at h
        obtain ⟨ns', halter, hname, hother⟩ := ih h
        refine ⟨(n, below) :: ns', ?_, ?_, ?_⟩
        · rw [alterName, if_neg hn, halter]
          rfl
        · rw [List.lookup_cons, beq_false_of_ne hne]
          exact hname
        · intro other hne'
          rw [List.lookup_cons, List.lookup_cons, hother other hne']

/-- A name gets a new meaning, and all others keep theirs. -/
theorem alter_spec (name : Bytes) (h : f (s.get? name) = some v) :
    ∃ s', s.alter name f = some s' ∧ s'.role = s.role ∧ s'.get? name = some v ∧
      ∀ other, other ≠ name → s'.get? other = s.get? other := by
  obtain ⟨ns', halter, hname, hother⟩ := lookup_alterName h
  cases s with
  | mk role closed dotted ns =>
      refine ⟨mk role closed dotted ns', ?_, rfl, hname, hother⟩
      exact congrArg (Option.map (setNames · (mk role closed dotted ns))) halter

theorem define_spec (h : s.get? name = none) :
    ∃ s', define [name] s = some s' ∧ s'.role = s.role ∧
      s'.get? name = some (mk .value false true []) ∧
      ∀ other, other ≠ name → s'.get? other = s.get? other :=
  alter_spec name (by rw [h])

theorem alterAt_cons {f : Scope → Option Scope} {path : List Bytes} {below : Scope}
    (hget : s.get? name = some below) (h : alterAt f path below = some v) :
    ∃ s', alterAt f (name :: path) s = some s' ∧ s'.role = s.role ∧ s'.get? name = some v ∧
      ∀ other, other ≠ name → s'.get? other = s.get? other :=
  alter_spec name (by rw [hget]; exact h)

theorem descend_cons {last : Option Scope → Option Scope} {next : Bytes} {path : List Bytes}
    {below : Scope} (hget : s.get? name = some below) (hrole : below.role ≠ .value)
    (h : descend last (next :: path) below = some v) :
    ∃ s', descend last (name :: next :: path) s = some s' ∧ s'.role = s.role ∧
      s'.get? name = some v ∧ ∀ other, other ≠ name → s'.get? other = s.get? other :=
  alter_spec name (by rw [hget]; exact (if_neg hrole).trans h)

theorem role_close (s : Scope) : s.close.role = s.role := by
  cases s
  rfl

theorem lookup_closeNames (name : Bytes) (ns : List (Bytes × Scope)) :
    (closeNames ns).lookup name = (ns.lookup name).map close := by
  induction ns with
  | nil => rfl
  | cons e ns ih =>
      obtain ⟨n, below⟩ := e
      rw [closeNames, List.lookup_cons, List.lookup_cons, ih]
      cases name == n <;> rfl

end Names

section Path

variable {p q : Scope → Prop} {m n : Nat}

/-- On a path of one name there are arrays of tables, and the last table has a property. -/
def Opened (name : Bytes) (p : Scope → Prop) : Nat → Scope → Prop
  | 0, s => p s
  | n + 1, s => ∃ below, s.get? name = some below ∧ below.role = .array ∧ Opened name p n below

/-- A name may be opened as an array: it is new or an array. -/
def Extendable (name : Bytes) (s : Scope) : Prop :=
  ∀ below, s.get? name = some below → below.role = .array

theorem Opened.mono (hpq : ∀ s, p s → q s) (h : Opened name p n s) : Opened name q n s := by
  induction n generalizing s with
  | zero => exact hpq s h
  | succ n ih =>
      obtain ⟨below, hget, hrole, hbelow⟩ := h
      exact ⟨below, hget, hrole, ih hbelow⟩

/-- The tables above an extendable one are extendable. -/
theorem Opened.of_le (hle : n ≤ m) (h : Opened name (Extendable name) m s) :
    Opened name (Extendable name) n s := by
  induction n generalizing m s with
  | zero =>
      cases m with
      | zero => exact h
      | succ m =>
          obtain ⟨below, hget, hrole, -⟩ := h
          intro other hother
          rw [hget] at hother
          exact Option.some.inj hother ▸ hrole
  | succ n ih =>
      cases m with
      | zero => cases hle
      | succ m =>
          obtain ⟨below, hget, hrole, hbelow⟩ := h
          exact ⟨below, hget, hrole, ih (Nat.le_of_succ_le_succ hle) hbelow⟩

theorem Opened.alterAt {f : Scope → Option Scope}
    (hf : ∀ s, p s → ∃ s', f s = some s' ∧ s'.role = s.role ∧ q s') (h : Opened name p n s) :
    ∃ s', s.alterAt f (List.replicate n name) = some s' ∧ s'.role = s.role ∧
      Opened name q n s' := by
  induction n generalizing s with
  | zero => exact hf s h
  | succ n ih =>
      obtain ⟨below, hget, hrole, hbelow⟩ := h
      obtain ⟨below', halter, hrole', hbelow'⟩ := ih hbelow
      obtain ⟨s', hs', hsrole, hget', -⟩ := alterAt_cons hget halter
      exact ⟨s', hs', hsrole, below', hget', hrole'.trans hrole, hbelow'⟩

theorem Opened.descend {last : Option Scope → Option Scope}
    (hlast : ∀ s, p s → ∃ below, last (s.get? name) = some below ∧ below.role = .array ∧ q below)
    (h : Opened name p n s) :
    ∃ s', s.descend last (List.replicate (n + 1) name) = some s' ∧ s'.role = s.role ∧
      Opened name q (n + 1) s' := by
  induction n generalizing s with
  | zero =>
      obtain ⟨below, hbelow, hrole, hq⟩ := hlast s h
      obtain ⟨s', halter, hrole', hget, -⟩ := alter_spec name hbelow
      exact ⟨s', halter, hrole', below, hget, hrole, hq⟩
  | succ n ih =>
      obtain ⟨below, hget, hrole, hbelow⟩ := h
      obtain ⟨below', hdescend, hrole', hq⟩ := ih hbelow
      have hvalue : below.role ≠ .value := by
        rw [hrole]
        decide
      obtain ⟨s', hs', hsrole, hget', -⟩ := descend_cons hget hvalue hdescend
      exact ⟨s', hs', hsrole, below', hget', hrole'.trans hrole, hq⟩

/-- One more table at the end of the path, with nothing in it. -/
theorem Opened.openItem (h : Opened name (Extendable name) n s) :
    ∃ s', s.openItem (List.replicate (n + 1) name) = some s' ∧ s'.role = s.role ∧
      Opened name (fun s => s.names = []) (n + 1) s' := by
  refine h.descend fun s hs => ?_
  cases hget : s.get? name with
  | none => exact ⟨_, rfl, rfl, rfl⟩
  | some below =>
      obtain ⟨role, closed, dotted, ns⟩ := below
      obtain rfl : role = .array := hs _ hget
      exact ⟨_, rfl, rfl, rfl⟩

end Path

end Arbor.Toml.Scope
