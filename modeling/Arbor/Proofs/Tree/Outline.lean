import Arbor.Proofs.Tree.Label
import Arbor.Proofs.Tree.Marked
import Arbor.Proofs.Tree.Traversal

/-! The lines of the children end where one begins that is not as far indented. -/
namespace Arbor

namespace Bytes

theorem blanks_append_inj {m n : Nat} {c d : UInt8} {a b : Bytes} (hc : c ≠ 32) (hd : d ≠ 32)
    (h : blanks m ++ c :: a = blanks n ++ d :: b) : m = n ∧ c :: a = d :: b := by
  have htake : ∀ {k : Nat} {e : UInt8} {r : Bytes}, e ≠ 32 →
      (blanks k ++ e :: r).takeWhile (· = 32) = blanks k := by
    intro k e r he
    refine takeWhile_append (fun x hx => by simp [List.eq_of_mem_replicate hx]) ?_
    rintro x ⟨⟩
    exact decide_eq_false he
  have hblanks := congrArg (List.takeWhile (· = 32)) h
  rw [htake hc, htake hd] at hblanks
  have hlength := congrArg List.length hblanks
  rw [blanks, blanks, List.length_replicate, List.length_replicate] at hlength
  subst hlength
  exact ⟨rfl, List.append_cancel_left h⟩

theorem append_newline_inj {a b r r' : Bytes} (ha : 10 ∉ a) (hb : 10 ∉ b)
    (h : a ++ 10 :: r = b ++ 10 :: r') : a = b ∧ r = r' := by
  have hline := congrArg (List.takeWhile (· ≠ 10)) h
  rw [takeWhile_ne ha, takeWhile_ne hb] at hline
  subst hline
  exact ⟨rfl, (List.cons.inj (List.append_cancel_left h)).2⟩

end Bytes

namespace Tree

def isMinusZero : Tree → Bool
  | absent => false
  | node h _ => h.isMinusZero

/-- Which of the nodes in pre-order are minus zeros. -/
def minusZeros (t : Tree) : List Bool := t.nodes.map isMinusZero

/-- No name in the tree holds a newline. -/
def KeepsLines (t : Tree) : Prop := ∀ h cs, node h cs ∈ t.nodes → h.KeepsLine

theorem minusZeros_node (h : Head) (cs : List Tree) :
    (node h cs).minusZeros = h.isMinusZero :: cs.flatMap minusZeros := by
  rw [minusZeros, nodes_node, List.map_cons, List.map_flatMap]
  rfl

def line (depth : Nat) (h : Head) : Bytes := Bytes.blanks (2 * depth) ++ h.label ++ [10]

theorem exists_line (depth : Nat) (h : Head) (rest : Bytes) :
    ∃ c more, c ≠ 32 ∧ h.label ++ 10 :: rest = c :: more ∧
      line depth h ++ rest = Bytes.blanks (2 * depth) ++ c :: more := by
  obtain ⟨c, name, hc, hname⟩ : ∃ c name, c ≠ 32 ∧ Bytes.ofString h.kind.name = c :: name := by
    cases h.kind <;> exact ⟨_, _, by decide, rfl⟩
  refine ⟨c, name ++ h.labelPayload ++ 10 :: rest, hc, ?_, ?_⟩
  · rw [Head.label, hname]
    rfl
  · rw [line, Head.label, hname]
    simp

/-- A line tells how deep it is, what it shows and where it ends. -/
theorem line_append_inj {m n : Nat} {h k : Head} {r r' : Bytes} (hh : h.KeepsLine)
    (hk : k.KeepsLine) (heq : line m h ++ r = line n k ++ r') :
    m = n ∧ h.label = k.label ∧ r = r' := by
  obtain ⟨c, more, hc, hlabel, hline⟩ := exists_line m h r
  obtain ⟨d, more', hd, hlabel', hline'⟩ := exists_line n k r'
  rw [hline, hline'] at heq
  obtain ⟨hdepth, heq⟩ := Bytes.blanks_append_inj hc hd heq
  rw [← hlabel, ← hlabel'] at heq
  obtain ⟨heq, hrest⟩ := Bytes.append_newline_inj (Head.newline_not_mem_label hh)
    (Head.newline_not_mem_label hk) heq
  exact ⟨by omega, heq, hrest⟩

def outlineAt : Tree → Nat → Bytes :=
  fold (fun _ => []) fun h shows depth => line depth h ++ shows.flatMap (· (depth + 1))

theorem outlineAt_node (h : Head) (cs : List Tree) (depth : Nat) :
    (node h cs).outlineAt depth = line depth h ++ cs.flatMap (outlineAt · (depth + 1)) := by
  rw [outlineAt, fold_node, List.flatMap_map]

theorem outline_eq (t : Tree) : t.outline = t.outlineAt 0 := by
  have hall : ∀ pending : List Place, (placesAll pending).flatMap
      (fun p => Bytes.blanks (2 * p.depth) ++ p.tree.label ++ [10]) =
        pending.flatMap fun p => p.tree.outlineAt p.depth := by
    intro pending
    fun_induction placesAll pending with
    | case1 => rfl
    | case2 depth parent pending ih => rw [ih]; rfl
    | case3 h cs depth parent pending ih =>
        simp only [List.map_subtype, List.unattach_attach] at ih
        rw [List.flatMap_cons, ih, List.flatMap_cons, outlineAt_node, List.flatMap_append,
          List.flatMap_map, List.append_assoc (line depth h)]
        rfl
  rw [outline, places, hall, List.flatMap_singleton]

/-- What may follow the outline of a tree whose root stands at a depth: nothing, or a line that is
no further indented. -/
def Follows (depth : Nat) (b : Bytes) : Prop :=
  b = [] ∨ ∃ n c more, n ≤ depth ∧ c ≠ 32 ∧ b = Bytes.blanks (2 * n) ++ c :: more

theorem Follows.mono {m n : Nat} {b : Bytes} (hle : m ≤ n) (h : Follows m b) : Follows n b := by
  rcases h with rfl | ⟨k, c, more, hk, hc, rfl⟩
  · exact .inl rfl
  · exact .inr ⟨k, c, more, hk.trans hle, hc, rfl⟩

theorem not_follows_line {depth : Nat} (h : Head) (rest : Bytes) :
    ¬ Follows depth (line (depth + 1) h ++ rest) := by
  obtain ⟨c, more, hc, -, hline⟩ := exists_line (depth + 1) h rest
  rw [hline]
  rintro (hnil | ⟨n, d, more', hn, hd, heq⟩)
  · simp at hnil
  · have hdepth := (Bytes.blanks_append_inj hc hd heq).1
    omega

/-- The outlines of further trees at a depth may follow one. -/
theorem follows_flatMap {cs : List Tree} {depth : Nat} {rest : Bytes} (hcs : ∀ c ∈ cs, c.Complete)
    (h : Follows depth rest) : Follows depth (cs.flatMap (outlineAt · depth) ++ rest) := by
  cases cs with
  | nil => exact h
  | cons t cs =>
      cases hcs t List.mem_cons_self with
      | @node h ds hds =>
        rw [List.flatMap_cons, outlineAt_node, List.append_assoc, List.append_assoc]
        obtain ⟨c, more, hc, -, hline⟩ := exists_line depth h
          (ds.flatMap (outlineAt · (depth + 1)) ++ (cs.flatMap (outlineAt · depth) ++ rest))
        exact .inr ⟨depth, c, more, Nat.le_refl depth, hc, hline⟩

/-- The same trees with minus zeros at the same nodes. -/
def Alike (t u : Tree) : Prop := t.Same u ∧ t.minusZeros = u.minusZeros

theorem Alike.node {h k : Head} {cs ds : List Tree} (hlabel : h.label = k.label)
    (hall : List.Forall₂ Alike cs ds) : Alike (.node h cs) (.node k ds) := by
  obtain ⟨hsame, hminus⟩ := Head.label_eq_iff.mp hlabel
  refine ⟨.node hsame (hall.imp fun _ _ => And.left), ?_⟩
  rw [minusZeros_node, minusZeros_node, hminus, List.flatMap_def, List.flatMap_def,
    map_eq_of_forall₂ hall fun _ _ _ => And.right]

/-- What an outline at a depth tells about a tree, whatever follows it. -/
def Tells (t : Tree) (depth : Nat) : Prop :=
  ∀ u r r', u.Complete → u.KeepsLines → Follows depth r → Follows depth r' →
    t.outlineAt depth ++ r = u.outlineAt depth ++ r' → Alike t u ∧ r = r'

/-- The outlines of children end where a line is not as far indented. -/
theorem forall₂_of_tells {depth : Nat} {cs ds : List Tree} {r r' : Bytes}
    (hcs : ∀ c ∈ cs, c.Complete ∧ c.Tells (depth + 1)) (hds : ∀ d ∈ ds, d.Complete ∧ d.KeepsLines)
    (hr : Follows depth r) (hr' : Follows depth r')
    (h : cs.flatMap (outlineAt · (depth + 1)) ++ r = ds.flatMap (outlineAt · (depth + 1)) ++ r') :
    List.Forall₂ Alike cs ds ∧ r = r' := by
  have hmore : ∀ {ts : List Tree} {r : Bytes}, (∀ t ∈ ts, t.Complete) → Follows depth r →
      Follows (depth + 1) (ts.flatMap (outlineAt · (depth + 1)) ++ r) :=
    fun hts hr => follows_flatMap hts (hr.mono (Nat.le_succ depth))
  -- no child begins where the parent's next sibling does
  have hfirst : ∀ {t : Tree} {r more : Bytes}, t.Complete → Follows depth r →
      r ≠ t.outlineAt (depth + 1) ++ more := by
    rintro t r more ⟨hts⟩ hr rfl
    rw [outlineAt_node, List.append_assoc] at hr
    exact not_follows_line _ _ hr
  induction cs generalizing ds with
  | nil =>
      cases ds with
      | nil => exact ⟨.nil, h⟩
      | cons d ds =>
          rw [List.flatMap_cons, List.append_assoc] at h
          exact absurd h (hfirst (hds d List.mem_cons_self).1 hr)
  | cons c cs ih =>
      obtain ⟨⟨hc, htells⟩, hcs⟩ := List.forall_mem_cons.mp hcs
      rw [List.flatMap_cons, List.append_assoc] at h
      cases ds with
      | nil => exact absurd h.symm (hfirst hc hr')
      | cons d ds =>
          obtain ⟨⟨hd, hlines⟩, hds⟩ := List.forall_mem_cons.mp hds
          rw [List.flatMap_cons, List.append_assoc] at h
          obtain ⟨halike, h⟩ := htells d _ _ hd hlines (hmore (fun e he => (hcs e he).1) hr)
            (hmore (fun e he => (hds e he).1) hr') h
          obtain ⟨hall, hrest⟩ := ih hcs hds h
          exact ⟨.cons halike hall, hrest⟩

theorem KeepsLines.head {h : Head} {cs : List Tree} (ht : KeepsLines (.node h cs)) :
    h.KeepsLine :=
  ht h cs (mem_nodes_node.mpr (.inl rfl))

theorem KeepsLines.children {h : Head} {cs : List Tree} (ht : KeepsLines (.node h cs)) :
    ∀ c ∈ cs, c.KeepsLines :=
  fun c hc k ds hmem => ht k ds (mem_nodes_node.mpr (.inr ⟨c, hc, hmem⟩))

/-- By induction over the tree: the first line tells the root, and the rest are the outlines of the
children. -/
theorem tells {t : Tree} (ht : t.Complete) (hlines : t.KeepsLines) (depth : Nat) :
    t.Tells depth := by
  induction t generalizing depth with
  | absent => cases ht
  | node h cs ih =>
      rintro u r r' hu hulines hr hr' heq
      cases hu with
      | @node k ds hds =>
        rw [outlineAt_node, outlineAt_node, List.append_assoc, List.append_assoc] at heq
        obtain ⟨-, hlabel, heq⟩ := line_append_inj hlines.head hulines.head heq
        obtain ⟨hall, hrest⟩ := forall₂_of_tells
          (fun c hc => ⟨ht.children c hc,
            ih c hc (ht.children c hc) (hlines.children c hc) (depth + 1)⟩)
          (fun d hd => ⟨hds d hd, hulines.children d hd⟩) hr hr' heq
        exact ⟨.node hlabel hall, hrest⟩

theorem alike_of_outline {t u : Tree} (ht : t.Complete) (hu : u.Complete) (htl : t.KeepsLines)
    (hul : u.KeepsLines) (h : t.outline = u.outline) : Alike t u := by
  rw [outline_eq, outline_eq] at h
  exact (tells ht htl 0 u [] [] hu hul (.inl rfl) (.inl rfl) (congrArg (· ++ []) h)).1

theorem length_minusZeros {t u : Tree} (h : t.Same u) :
    t.minusZeros.length = u.minusZeros.length := by
  induction t generalizing u with
  | absent =>
      cases h with
      | absent => rfl
  | node l cs ih =>
      cases h with
      | @node _ k _ ds hhead hcs =>
        rw [minusZeros_node, minusZeros_node, List.length_cons, List.length_cons,
          List.length_flatMap, List.length_flatMap, map_eq_of_forall₂ hcs fun c hc d => ih c hc]

theorem forall₂_alike {cs ds : List Tree} (hall : List.Forall₂ Same cs ds)
    (hminus : cs.flatMap minusZeros = ds.flatMap minusZeros) : List.Forall₂ Alike cs ds := by
  induction hall with
  | nil => exact .nil
  | cons hsame hall ih =>
      rw [List.flatMap_cons, List.flatMap_cons] at hminus
      obtain ⟨hfirst, hrest⟩ := List.append_inj hminus (length_minusZeros hsame)
      exact .cons ⟨hsame, hfirst⟩ (ih hrest)

theorem Alike.parts {h k : Head} {cs ds : List Tree} (halike : Alike (.node h cs) (.node k ds)) :
    h.label = k.label ∧ List.Forall₂ Alike cs ds := by
  obtain ⟨hsame, hminus⟩ := halike
  rw [minusZeros_node, minusZeros_node] at hminus
  obtain ⟨hroot, hminus⟩ := List.cons.inj hminus
  cases hsame with
  | node hhead hcs => exact ⟨Head.label_eq_iff.mpr ⟨hhead, hroot⟩, forall₂_alike hcs hminus⟩

theorem outlineAt_of_alike {t u : Tree} (h : Alike t u) (depth : Nat) :
    t.outlineAt depth = u.outlineAt depth := by
  induction t generalizing u depth with
  | absent =>
      cases h.1 with
      | absent => rfl
  | node l cs ih =>
      cases u with
      | absent => cases h.1
      | node k ds =>
          obtain ⟨hlabel, hall⟩ := h.parts
          rw [outlineAt_node, outlineAt_node, line, line, hlabel, List.flatMap_def, List.flatMap_def,
            map_eq_of_forall₂ hall fun c hc d hcd => ih c hc hcd (depth + 1)]

/-- Alike trees have one outline, whatever their names hold. -/
theorem outline_of_alike {t u : Tree} (h : Alike t u) : t.outline = u.outline := by
  rw [outline_eq, outline_eq, outlineAt_of_alike h]

end Tree

end Arbor
