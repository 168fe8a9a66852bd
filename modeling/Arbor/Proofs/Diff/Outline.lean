import Arbor.Command.Run
import Arbor.Diff.Outline
import Arbor.Host.Memory
import Arbor.Proofs.Command.Session
import Arbor.Proofs.Diff.Replay
import Arbor.Proofs.Tree.Outline

/-! The line diff is empty exactly if the outlines are equal. -/
namespace Arbor

theorem Bytes.flatten_lines (b : Bytes) : b.lines.flatten = b := by
  induction b with
  | nil => rfl
  | cons c b ih =>
      rw [lines]
      split
      · rw [List.flatten_cons, ih, List.singleton_append]
      · split
        next hlines =>
          rw [hlines] at ih
          rw [← ih]
          rfl
        next l ls hlines =>
          rw [hlines, List.flatten_cons] at ih
          rw [List.flatten_cons, List.cons_append, ih]

theorem styled_ne_nil (code : String) (text : Bytes) : styled code text ≠ [] := by
  have hreset : Bytes.ofString "\x1b[0m" ≠ [] := by decide
  simp [styled, hreset]

theorem Colour.line_ne_nil (c : Colour) (line : Bytes) : c.line line ≠ [] := by
  rw [Colour.line]
  split
  · simp
  · exact styled_ne_nil _ _

theorem Move.showLine_ne_nil (coloured : Bool) (m : Move) (line : Bytes) :
    m.showLine coloured line ≠ [] := by
  unfold Move.showLine
  split
  · exact Colour.line_ne_nil _ _
  · exact List.cons_ne_nil _ _

namespace Script

/-- A script of which nothing is shown is one between empty lists. -/
theorem eq_nil_of_showLines {coloured : Bool} {s : Script Bytes} {a b : List Bytes}
    (hs : s.Turns a b) (h : s.showLines coloured = []) : a = [] ∧ b = [] := by
  have hitems : ∀ e ∈ s, e.items = [] := by
    intro e he
    rw [showLines, List.flatMap_eq_nil_iff] at h
    rw [List.eq_nil_iff_forall_not_mem]
    intro l hl
    exact Move.showLine_ne_nil _ _ _ (List.flatMap_eq_nil_iff.mp (h e he) l hl)
  rw [← hs.source, ← hs.target, source, target, List.flatMap_eq_nil_iff, List.flatMap_eq_nil_iff]
  constructor
  · intro e he
    rw [hitems e he, ite_self]
  · intro e he
    rw [hitems e he, ite_self]

end Script

namespace Tree

variable {limit : Int} {old new : Tree}

/-- Valid trees have a line diff, which is empty exactly if their outlines are equal. -/
theorem exists_outlineDiff (hold : old.validate limit = .ok ())
    (hnew : new.validate limit = .ok ()) (coloured : Bool) :
    ∃ text, old.outlineDiff limit coloured new = .ok text ∧
      (text = [] ↔ old.outline = new.outline) := by
  refine ⟨_, by rw [outlineDiff, hold, hnew]; rfl, ?_⟩
  constructor
  · intro htext
    split at htext
    next heq => exact heq
    next =>
      obtain ⟨ha, hb⟩ := Script.eq_nil_of_showLines (Align.turns_script _ _) htext
      rw [← Bytes.flatten_lines old.outline, ← Bytes.flatten_lines new.outline, ha, hb]
  · exact fun heq => if_pos heq

theorem outlineDiff_eq_nil_iff (hold : old.validate limit = .ok ())
    (hnew : new.validate limit = .ok ()) (coloured : Bool) :
    old.outlineDiff limit coloured new = .ok [] ↔ old.outline = new.outline := by
  obtain ⟨text, htext, hempty⟩ := exists_outlineDiff hold hnew coloured
  rw [htext, Except.ok.injEq, hempty]

theorem exists_diff (hold : old.validate limit = .ok ()) (hnew : new.validate limit = .ok ()) :
    ∃ changes, old.diff limit new = .ok changes ∧
      (changes = [] ↔ old.compare limit new = .ok 0) := by
  obtain ⟨f, hf⟩ : ∃ f, old.hashes fnv1a limit = .ok f := markAt_succeeds hold
  obtain ⟨t, ht⟩ : ∃ t, new.hashes fnv1a limit = .ok t := markAt_succeeds hnew
  obtain ⟨rfl, hfvalue⟩ := markAt_eq_ok 0 hf
  obtain ⟨rfl, htvalue⟩ := markAt_eq_ok 0 ht
  refine ⟨_, by rw [diff, diffWith, hold, hnew, hf, ht]; rfl,
    (rebuilds_changes Aligner.covers_short _ hnew ?_).2⟩
  intro hzero
  rw [hfvalue, htvalue, hash_congr (same_of_compare f.complete_tree t.complete_tree hzero)]

theorem diff_eq_nil_iff (hold : old.validate limit = .ok ()) (hnew : new.validate limit = .ok ()) :
    old.diff limit new = .ok [] ↔ old.compare limit new = .ok 0 := by
  obtain ⟨changes, hchanges, hempty⟩ := exists_diff hold hnew
  rw [hchanges, Except.ok.injEq, hempty]

end Tree

namespace Session

variable [Monad m] [Host m]

/-- What `diff` shows of the two trees that it has read. -/
def shownOf (s : Session) (t u : Tree) : ExceptT Failure m Bytes :=
  if s.options.text then orFault (t.outlineDiff s.limit s.isColoured u)
  else do
    let changes ← orFault (t.diff s.limit u)
    s.trace (Note.ofDiff s.limit t u changes)
    pure (changeLines s.paint? changes)

def showPair (s : Session) (t u : Tree) : ExceptT Failure m Unit := do
  let shown ← s.shownOf t u
  if shown ≠ [] then
    s.emit shown
    throw .differ

theorem changeLines_eq_nil_iff {paint : Option Paint} {cs : List Change} :
    changeLines paint cs = [] ↔ cs = [] := by
  rw [changeLines, List.flatMap_eq_nil_iff, List.eq_nil_iff_forall_not_mem]
  simp

variable [LawfulMonad m]

theorem diff_eq (s : Session) (names : List Bytes) :
    (s.diff names : ExceptT Failure m Unit) =
      s.readPair names >>= fun p => s.showPair p.1 p.2 := by
  refine congrArg (s.readPair names >>= ·) (funext fun p => ?_)
  unfold showPair shownOf
  cases s.options.text <;> simp

/-- After some reports the program has something to show, and it is nothing or it is the text that
tells the trees apart. -/
theorem run_shownOf {s : Session} {t u : Tree} {text : Bytes} {changes : List Change}
    (htext : t.outlineDiff s.limit s.isColoured u = .ok text)
    (hchanges : t.diff s.limit u = .ok changes) :
    ∃ act : m Unit, (s.shownOf t u : ExceptT Failure m Bytes).run = act >>= fun _ =>
      pure (.ok (if s.options.text then text else changeLines s.paint? changes)) := by
  unfold shownOf
  split
  · refine ⟨pure (), ?_⟩
    simp [orFault, htext]
  · refine ⟨s.trace (Note.ofDiff s.limit t u changes), ?_⟩
    simp [orFault, hchanges, trace_lift, Except.map]

theorem run_showPair {s : Session} {t u : Tree} {shown : Bytes} {act : m Unit}
    (hshown : (s.shownOf t u : ExceptT Failure m Bytes).run = act >>= fun _ => pure (.ok shown)) :
    ∃ act : m Unit, (s.showPair t u).run = act >>= fun _ =>
      pure (if shown = [] then .ok () else .error .differ) := by
  unfold showPair
  rw [ExceptT.run_bind, hshown]
  by_cases hnil : shown = []
  · exact ⟨act, by simp [hnil]⟩
  · refine ⟨act >>= fun _ => s.emit shown, ?_⟩
    simp [hnil, emit_lift]

/-- After some reports and output the program returns a code. -/
def Returns (s : Session) (t u : Tree) (code : Nat) : Prop :=
  ∀ synopsis, ∃ act : m Unit,
    ((s.showPair t u).run >>= Command.finish synopsis) = act >>= fun _ => pure code

/-- The program returns zero exactly if nothing is shown. -/
theorem returns_showPair {s : Session} {t u : Tree} {text : Bytes} {changes : List Change}
    (htext : t.outlineDiff s.limit s.isColoured u = .ok text)
    (hchanges : t.diff s.limit u = .ok changes) (hempty : text = [] ↔ changes = []) :
    s.Returns (m := m) t u (if changes = [] then 0 else 1) := by
  intro synopsis
  obtain ⟨act, hshown⟩ := run_shownOf (m := m) htext hchanges
  obtain ⟨act', hrun⟩ := run_showPair hshown
  have hnil : (if s.options.text then text else changeLines s.paint? changes) = [] ↔
      changes = [] := by
    split
    · exact hempty
    · exact changeLines_eq_nil_iff
  refine ⟨act', ?_⟩
  rw [hrun, bind_assoc]
  refine congrArg (act' >>= ·) (funext fun _ => ?_)
  rw [pure_bind]
  by_cases hchanges : changes = []
  · rw [if_pos (hnil.mpr hchanges), if_pos hchanges]
    rfl
  · rw [if_neg (hnil.not.mpr hchanges), if_neg hchanges]
    rfl

end Session

namespace Tree

variable {limit : Int} {old new : Tree}

/-- The line diff and the changes of valid trees both exist, and there are no changes exactly if the
trees are the same. If there are none and minus zeros stand at the same nodes the line diff is
empty, and where no name breaks a line it is not empty otherwise. So on trees without such names,
unless they differ in the signs of zeros alone, the program returns the same with either of them. -/
theorem outlineDiff_agrees_with_diff [Monad m] [LawfulMonad m] [Host m]
    (hold : old.validate limit = .ok ()) (hnew : new.validate limit = .ok ()) (coloured : Bool) :
    ∃ text changes, old.outlineDiff limit coloured new = .ok text ∧
      old.diff limit new = .ok changes ∧
      (changes = [] ↔ old.compare limit new = .ok 0) ∧
      (changes = [] → old.minusZeros = new.minusZeros → text = []) ∧
      (old.KeepsLines → new.KeepsLines →
        (text = [] ↔ changes = [] ∧ old.minusZeros = new.minusZeros) ∧
        ((changes = [] → old.minusZeros = new.minusZeros) → ∀ s : Session, s.limit = limit →
          s.Returns (m := m) old new (if changes = [] then 0 else 1))) := by
  obtain ⟨text, htext, houtline⟩ := exists_outlineDiff hold hnew coloured
  obtain ⟨changes, hchanges, hcompare⟩ := exists_diff hold hnew
  have hcomplete := complete_of_validateAt hold
  have hcomplete' := complete_of_validateAt hnew
  have hsame : changes = [] ↔ old.Same new :=
    hcompare.trans ⟨same_of_compare hcomplete hcomplete', compare_of_same hnew⟩
  refine ⟨text, changes, htext, hchanges, hcompare, ?_, ?_⟩
  · intro hnil hminus
    exact houtline.mpr (outline_of_alike ⟨hsame.mp hnil, hminus⟩)
  · intro hlines hlines'
    have halike : old.outline = new.outline ↔ changes = [] ∧ old.minusZeros = new.minusZeros := by
      rw [hsame]
      exact ⟨alike_of_outline hcomplete hcomplete' hlines hlines', outline_of_alike⟩
    refine ⟨houtline.trans halike, ?_⟩
    rintro hminus s rfl
    obtain ⟨shown, hshown, hempty⟩ := exists_outlineDiff hold hnew s.isColoured
    refine Session.returns_showPair hshown hchanges ((hempty.trans halike).trans ?_)
    exact and_iff_left_of_imp hminus

/-- Sums of a name and a NaN, of which there are many patterns: neither difference shows anything, and
the program returns zero. -/
theorem outlineDiff_agrees_with_diff_nan :
    let sum (nan : UInt64) := node (.binary [0x2B])
      [node (.identifier [0x61]) [], node (.float ⟨nan⟩) []]
    let old := sum 0x7FF8000000000000
    let new := sum 0xFFF0000000000001
    (old.validate 1 = .ok () ∧ new.validate 1 = .ok () ∧ old.KeepsLines ∧ new.KeepsLines ∧
        old.minusZeros = new.minusZeros) ∧
      old.outlineDiff 1 true new = .ok [] ∧ old.diff 1 new = .ok [] ∧
      ∀ s : Session, s.limit = 1 → s.Returns (m := StateM Memory) old new 0 := by
  intro sum old new
  have hvalid : ∀ nan, (sum nan).validate 1 = .ok () := fun nan => rfl
  have hlines : ∀ nan, (sum nan).KeepsLines := by
    intro nan h cs hmem
    rw [nodes_node] at hmem
    simp [nodes_node] at hmem
    rcases hmem with ⟨rfl, -⟩ | ⟨rfl, -⟩ | ⟨rfl, -⟩
    · trivial
    · exact (by decide : (10 : UInt8) ∉ [0x61])
    · trivial
  have hminus : old.minusZeros = new.minusZeros := by
    simp only [old, new, sum, minusZeros_node, List.flatMap_cons, List.flatMap_nil]
    rfl
  have hcompare : old.compare 1 new = .ok 0 := by decide
  obtain ⟨text, changes, htext, hchanges, hsame, -, hagree⟩ :=
    outlineDiff_agrees_with_diff (m := StateM Memory) (hvalid _) (hvalid _) true
  obtain ⟨hempty, hreturns⟩ := hagree (hlines _) (hlines _)
  obtain rfl : changes = [] := hsame.mpr hcompare
  obtain rfl : text = [] := hempty.mpr ⟨rfl, hminus⟩
  exact ⟨⟨hvalid _, hvalid _, hlines _, hlines _, hminus⟩, htext, hchanges,
    hreturns fun _ => hminus⟩

/-- A minus in front of a zero shows in the outline and is no change; a name with a newline can look
like a node, which is a change that does not show. -/
theorem outlineDiff_disagrees_with_diff :
    let zero (bits : UInt64) := node (.float ⟨bits⟩) []
    let name (n : Bytes) := node .expression [node (.identifier n) []]
    let one := node .block [name "a\n  BlockStatement"]
    let two := node .block [name "a", node .block []]
    ((zero 0).validate 2 = .ok () ∧ (zero 0x8000000000000000).validate 2 = .ok () ∧
        (zero 0).diff 2 (zero 0x8000000000000000) = .ok [] ∧
        (zero 0).outlineDiff 2 false (zero 0x8000000000000000) ≠ .ok []) ∧
      one.validate 2 = .ok () ∧ two.validate 2 = .ok () ∧
        one.diff 2 two ≠ .ok [] ∧ one.outlineDiff 2 false two = .ok [] := by
  intro zero name one two
  have hzero : (zero 0).outline ≠ (zero 0x8000000000000000).outline := by
    rw [outline_eq, outline_eq]
    decide
  have hname : one.outline = two.outline := by
    rw [outline_eq, outline_eq]
    rfl
  refine ⟨⟨rfl, rfl, (diff_eq_nil_iff rfl rfl).mpr (by decide), ?_⟩, rfl, rfl, ?_, ?_⟩
  · exact (outlineDiff_eq_nil_iff rfl rfl false).not.mpr hzero
  · exact (diff_eq_nil_iff rfl rfl).not.mpr (by decide)
  · exact (outlineDiff_eq_nil_iff rfl rfl false).mpr hname

end Tree

end Arbor
