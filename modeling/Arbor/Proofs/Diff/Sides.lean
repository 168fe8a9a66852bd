import Arbor.Proofs.Diff.Outline

/-! The lines of a line diff are those of the two outlines behind their marks. -/
namespace Arbor

namespace Bytes

def IsLine (l : Bytes) : Prop := ∃ body, 10 ∉ body ∧ l = body ++ [10]

theorem lines_append {l : Bytes} (hl : IsLine l) (rest : Bytes) :
    (l ++ rest).lines = l :: rest.lines := by
  obtain ⟨body, hbody, rfl⟩ := hl
  induction body with
  | nil => rw [List.nil_append, List.singleton_append, lines, if_pos rfl]
  | cons c body ih =>
      rw [List.mem_cons, not_or] at hbody
      rw [List.cons_append, List.cons_append, lines, if_neg (Ne.symm hbody.1), ih hbody.2]

/-- Lines that are joined are cut where they were. -/
theorem lines_flatten {ls : List Bytes} (hls : ∀ l ∈ ls, IsLine l) : lines ls.flatten = ls := by
  induction ls with
  | nil => rfl
  | cons l ls ih =>
      rw [List.forall_mem_cons] at hls
      rw [List.flatten_cons, lines_append hls.1, ih hls.2]

theorem isLine_of_mem_lines (b : Bytes) : ∀ l ∈ lines (b ++ [10]), IsLine l := by
  have hnewline : IsLine [10] := ⟨[], List.not_mem_nil, rfl⟩
  induction b with
  | nil =>
      intro l hl
      rw [List.mem_singleton.mp hl]
      exact hnewline
  | cons c b ih =>
      rw [List.cons_append, lines]
      by_cases hc : c = 10
      · rw [if_pos hc, hc]
        exact List.forall_mem_cons.mpr ⟨hnewline, ih⟩
      · rw [if_neg hc]
        -- `c` goes to the front of the first line, which there is for the newline at the end
        cases hlines : lines (b ++ [10]) with
        | nil =>
            have hflat := flatten_lines (b ++ [10])
            rw [hlines] at hflat
            simp at hflat
        | cons l ls =>
            rw [hlines, List.forall_mem_cons] at ih
            obtain ⟨⟨body, hbody, rfl⟩, hls⟩ := ih
            refine List.forall_mem_cons.mpr ⟨⟨c :: body, ?_, rfl⟩, hls⟩
            rw [List.mem_cons, not_or]
            exact ⟨Ne.symm hc, hbody⟩

/-- The lines of a text that begin with one of the marks, joined without them. -/
def sideOf (text marks : Bytes) : Bytes :=
  (text.lines.filter fun l => l.head?.any (· ∈ marks)).flatMap List.tail

/-- A text of marked lines that says what differs between two texts, and nothing if they are equal. -/
structure ShowsBoth (text a b : Bytes) : Prop where
  quiet : text = [] → a = b
  marked : ∀ l ∈ text.lines, ∃ c body, c ∈ ofString "-+ " ∧ 10 ∉ body ∧ l = c :: (body ++ [10])
  left : text ≠ [] → text.sideOf (ofString "- ") = a
  right : text ≠ [] → text.sideOf (ofString "+ ") = b

end Bytes

theorem Move.mark_mem (m : Move) : m.mark ∈ Bytes.ofString "-+ " := by
  cases m <;> decide

theorem Move.showLine_plain (m : Move) (line : Bytes) : m.showLine false line = m.mark :: line := by
  cases m <;> rfl

namespace Script

variable {s : Script Bytes} {a b : List Bytes}

def markedLines (s : Script Bytes) : List Bytes :=
  s.flatMap fun e => e.items.map (e.move.mark :: ·)

theorem showLines_eq (s : Script Bytes) : s.showLines false = s.markedLines.flatten := by
  rw [showLines, markedLines, ← List.flatMap_id, List.flatMap_assoc]
  apply List.flatMap_congr
  intro e _
  rw [List.flatMap_map]
  apply List.flatMap_congr
  intro line _
  exact e.move.showLine_plain line

theorem Turns.mem_of_mem_items (hs : s.Turns a b) {e : Edit Bytes} (he : e ∈ s) {l : Bytes}
    (hl : l ∈ e.items) : l ∈ a ∨ l ∈ b := by
  by_cases hmove : e.move = .insert
  · right
    rw [← hs.target]
    exact List.mem_flatMap.mpr ⟨e, he, by simpa [hmove] using hl⟩
  · left
    rw [← hs.source]
    exact List.mem_flatMap.mpr ⟨e, he, by simpa [hmove] using hl⟩

theorem exists_of_mem_markedLines (hs : ∀ e ∈ s, ∀ l ∈ e.items, Bytes.IsLine l) :
    ∀ l ∈ s.markedLines,
      ∃ c body, c ∈ Bytes.ofString "-+ " ∧ 10 ∉ body ∧ l = c :: (body ++ [10]) := by
  intro l hl
  obtain ⟨e, he, hl⟩ := List.mem_flatMap.mp hl
  obtain ⟨line, hline, rfl⟩ := List.mem_map.mp hl
  obtain ⟨body, hbody, rfl⟩ := hs e he line hline
  exact ⟨e.move.mark, body, e.move.mark_mem, hbody, rfl⟩

theorem lines_showLines (hs : ∀ e ∈ s, ∀ l ∈ e.items, Bytes.IsLine l) :
    (s.showLines false).lines = s.markedLines := by
  rw [showLines_eq]
  apply Bytes.lines_flatten
  intro l hl
  obtain ⟨c, body, hc, hbody, rfl⟩ := exists_of_mem_markedLines hs l hl
  refine ⟨c :: body, ?_, rfl⟩
  rw [List.mem_cons, not_or]
  refine ⟨?_, hbody⟩
  rintro rfl
  exact absurd hc (by decide)

/-- Under some marks stand the lines of the runs that have them. -/
theorem sideOf_showLines (hs : ∀ e ∈ s, ∀ l ∈ e.items, Bytes.IsLine l) (marks : Bytes) :
    (s.showLines false).sideOf marks =
      (s.flatMap fun e => if e.move.mark ∈ marks then e.items else []).flatten := by
  rw [Bytes.sideOf, lines_showLines hs, markedLines, List.filter_flatMap, List.flatMap_assoc,
    ← List.flatMap_id, List.flatMap_assoc]
  apply List.flatMap_congr
  intro e _
  by_cases hmark : e.move.mark ∈ marks
  · simp [hmark, List.filter_map, List.flatMap_map, Function.comp_def]
  · simp [hmark, List.filter_map, Function.comp_def]

theorem sideOf_source (hs : ∀ e ∈ s, ∀ l ∈ e.items, Bytes.IsLine l) :
    (s.showLines false).sideOf (Bytes.ofString "- ") = s.source.flatten := by
  rw [sideOf_showLines hs, source]
  congr 2
  funext e
  cases e.move <;> rfl

theorem sideOf_target (hs : ∀ e ∈ s, ∀ l ∈ e.items, Bytes.IsLine l) :
    (s.showLines false).sideOf (Bytes.ofString "+ ") = s.target.flatten := by
  rw [sideOf_showLines hs, target]
  congr 2
  funext e
  cases e.move <;> rfl

/-- The runs of a script joined to texts, which are cut into lines again and shown. -/
def showRuns (coloured : Bool) (s : Script Bytes) : Bytes :=
  s.flatMap fun e => (Bytes.lines e.items.flatten).flatMap (e.move.showLine coloured)

theorem showRuns_eq (hs : ∀ e ∈ s, ∀ l ∈ e.items, Bytes.IsLine l) (coloured : Bool) :
    s.showRuns coloured = s.showLines coloured := by
  apply List.flatMap_congr
  intro e he
  rw [Bytes.lines_flatten (hs e he)]

end Script

abbrev LineAligner := List Bytes → List Bytes → Script Bytes

/-- Every script starts from the one list and ends with the other. -/
def LineAligner.Lawful (align : LineAligner) : Prop := ∀ a b, (align a b).Turns a b

namespace Tree

variable {limit : Int} {old new : Tree}

theorem isLine_of_mem_outline (t : Tree) : ∀ l ∈ t.outline.lines, Bytes.IsLine l := by
  rcases List.eq_nil_or_concat t.places with hnil | ⟨ps, p, hps⟩
  · rw [outline, hnil]
    intro l hl
    cases hl
  · have hlast : t.outline = ps.flatMap (fun p => Bytes.blanks (2 * p.depth) ++ p.tree.label ++ [10]) ++
        (Bytes.blanks (2 * p.depth) ++ p.tree.label) ++ [10] := by
      rw [outline, hps]
      simp
    rw [hlast]
    exact Bytes.isLine_of_mem_lines _

theorem isLine_of_turns {s : Script Bytes} (hs : s.Turns old.outline.lines new.outline.lines) :
    ∀ e ∈ s, ∀ l ∈ e.items, Bytes.IsLine l := by
  intro e he l hl
  rcases hs.mem_of_mem_items he hl with hold | hnew
  · exact isLine_of_mem_outline old l hold
  · exact isLine_of_mem_outline new l hnew

/-- The line diff of two outlines along the scripts of an aligner; nothing if they are equal. -/
def outlineDiffWith (align : LineAligner) (limit : Int) (coloured : Bool) (old new : Tree) :
    Except Fault Bytes := do
  old.validate limit
  new.validate limit
  let a := old.outline
  let b := new.outline
  return if a = b then [] else (align a.lines b.lines).showRuns coloured

theorem outlineDiff_eq (limit : Int) (coloured : Bool) (old new : Tree) :
    old.outlineDiff limit coloured new = old.outlineDiffWith Align.script limit coloured new := by
  have hlines := isLine_of_turns (Align.turns_script old.outline.lines new.outline.lines)
  simp only [outlineDiff, outlineDiffWith, Script.showRuns_eq hlines]

theorem showsBoth_of_turns {s : Script Bytes} (hs : s.Turns old.outline.lines new.outline.lines) :
    (s.showLines false).ShowsBoth old.outline new.outline := by
  have hlines := isLine_of_turns hs
  constructor
  · intro hnil
    obtain ⟨ha, hb⟩ := Script.eq_nil_of_showLines hs hnil
    rw [← Bytes.flatten_lines old.outline, ← Bytes.flatten_lines new.outline, ha, hb]
  · rw [Script.lines_showLines hlines]
    exact Script.exists_of_mem_markedLines hlines
  · intro _
    rw [Script.sideOf_source hlines, hs.source, Bytes.flatten_lines]
  · intro _
    rw [Script.sideOf_target hlines, hs.target, Bytes.flatten_lines]

theorem exists_showsBoth {align : LineAligner} (halign : align.Lawful)
    (hold : old.validate limit = .ok ()) (hnew : new.validate limit = .ok ()) :
    ∃ text, old.outlineDiffWith align limit false new = .ok text ∧
      text.ShowsBoth old.outline new.outline := by
  have hturns := halign old.outline.lines new.outline.lines
  refine ⟨_, by rw [outlineDiffWith, hold, hnew]; rfl, ?_⟩
  split
  next heq =>
    refine ⟨fun _ => heq, ?_, fun hne => absurd rfl hne, fun hne => absurd rfl hne⟩
    intro l hl
    cases hl
  next =>
    rw [Script.showRuns_eq (isLine_of_turns hturns)]
    exact showsBoth_of_turns hturns

/-- The line diff of valid trees without colours, and any other that is made along scripts between
the two lists of lines. If it is empty the outlines are equal. Otherwise its lines begin with a
minus, a plus or a blank and end in a newline; those with a minus or a blank make up the old outline
and those with a plus or a blank the new one. -/
theorem outlineDiff_shows_both {align : LineAligner} (halign : align.Lawful)
    (hold : old.validate limit = .ok ()) (hnew : new.validate limit = .ok ()) :
    (∃ text, old.outlineDiff limit false new = .ok text ∧
      text.ShowsBoth old.outline new.outline) ∧
    ∃ text, old.outlineDiffWith align limit false new = .ok text ∧
      text.ShowsBoth old.outline new.outline := by
  rw [outlineDiff_eq]
  exact ⟨exists_showsBoth Align.turns_script hold hnew, exists_showsBoth halign hold hnew⟩

/-- A name with a newline and one that is no text, by a script that deletes all and inserts all. -/
theorem outlineDiff_shows_both_broken_names :
    let name (n : Bytes) := node .expression [node (.identifier n) []]
    let old := node .block [name [0x61, 0x0A, 0xFF], name [0x62]]
    let new := node .block [name [0x62], name [0xC3]]
    let replace : LineAligner := fun a b => [⟨.delete, a⟩, ⟨.insert, b⟩]
    (replace.Lawful ∧ old.validate 2 = .ok () ∧ new.validate 2 = .ok ()) ∧
      ∃ text more, old.outlineDiff 2 false new = .ok text ∧
        old.outlineDiffWith replace 2 false new = .ok more ∧ text ≠ [] ∧
        text.sideOf (Bytes.ofString "- ") = old.outline ∧
        text.sideOf (Bytes.ofString "+ ") = new.outline ∧
        more.sideOf (Bytes.ofString "- ") = old.outline := by
  intro name old new replace
  have hlawful : replace.Lawful := Script.turns_replace
  have hold : old.validate 2 = .ok () := rfl
  have hnew : new.validate 2 = .ok () := rfl
  have hdiffer : old.outline ≠ new.outline := by
    rw [outline_eq, outline_eq]
    decide
  obtain ⟨⟨text, htext, hshows⟩, more, hmore, hshows'⟩ :=
    outlineDiff_shows_both hlawful hold hnew
  have hne : text ≠ [] := fun hnil => hdiffer (hshows.quiet hnil)
  have hne' : more ≠ [] := fun hnil => hdiffer (hshows'.quiet hnil)
  exact ⟨⟨hlawful, hold, hnew⟩, text, more, htext, hmore, hne, hshows.left hne, hshows.right hne,
    hshows'.left hne'⟩

end Tree

end Arbor
