import Arbor.Command.Run
import Arbor.Proofs.Diff.Outline
import Arbor.Proofs.Text.Utf8

/-! Where no colours are shown a painted text is a template filled without values. -/
namespace Arbor

namespace Palette

variable {a : UInt8} {b rest tail more : Bytes}

theorem templateOf_append (b rest : Bytes) :
    templateOf (b ++ rest) = templateOf b ++ templateOf rest := List.flatMap_append

theorem templateOf_percent (rest : Bytes) :
    templateOf (37 :: rest) = 37 :: 37 :: templateOf rest := rfl

theorem templateOf_cons (ha : a ≠ 37) : templateOf (a :: rest) = a :: templateOf rest := by
  rw [templateOf, List.flatMap_cons, if_neg ha]
  rfl

theorem templateOf_eq_self (hb : 37 ∉ b) : templateOf b = b := by
  induction b with
  | nil => rfl
  | cons a b ih =>
      obtain ⟨ha, hb⟩ := List.ne_and_not_mem_of_not_mem_cons hb
      rw [templateOf_cons (Ne.symm ha), ih hb]

/-- What a template begins with up to its first percent sign the text begins with. -/
theorem exists_append_of_templateOf (htail : 37 ∉ tail) (h : templateOf b = tail ++ more) :
    ∃ more, b = tail ++ more := by
  induction tail generalizing b with
  | nil => exact ⟨b, rfl⟩
  | cons x tail ih =>
      obtain ⟨hx, hmem⟩ := List.ne_and_not_mem_of_not_mem_cons htail
      cases b with
      | nil => cases h
      | cons a b =>
          by_cases ha : a = 37
          · rw [ha, templateOf_percent] at h
            exact absurd (List.cons.inj h).1 hx
          · rw [templateOf_cons ha] at h
            obtain ⟨rfl, hrest⟩ := List.cons.inj h
            obtain ⟨more, rfl⟩ := ih hmem hrest
            exact ⟨more, rfl⟩

/-- Doubled percent signs make no character of a byte that starts none. -/
theorem scalar?_templateOf (h : Utf8.scalar? a rest = none) :
    Utf8.scalar? a (templateOf rest) = none := by
  rw [Option.eq_none_iff_forall_ne_some]
  rintro ⟨c, n⟩ hscalar
  obtain ⟨tail, more, htemplate, -, hc⟩ := Utf8.encode_of_scalar? hscalar
  have htail : 37 ∉ tail := fun hmem =>
    absurd (Utf8.high_of_mem_tail hc hmem) (by decide)
  obtain ⟨more, rfl⟩ := exists_append_of_templateOf htail htemplate
  rw [Utf8.scalar?_encode hc] at h
  cases h

/-- Filling a template gives the text it was made of, also where that is no UTF-8. -/
theorem fill_templateOf (b : Bytes) : Message.fill (templateOf b) [] = b := by
  rw [Message.fill]
  induction b using Utf8.bytes_induction with
  | nil => rfl
  | scalar c rest ih =>
      by_cases hc : c = '%'
      · have hpercent : Utf8.encode '%' = [37] := rfl
        have htemplate : templateOf (Utf8.encode '%' ++ rest) =
            Utf8.encode '%' ++ (Utf8.encode '%' ++ templateOf rest) := rfl
        rw [hc, htemplate, Utf8.pieces_encode_append, Utf8.pieces_encode_append,
          Message.fillFrom, Utf8.Piece.bytes, if_pos hpercent, Message.fillFrom,
          Utf8.Piece.bytes, if_pos hpercent, ih]
        rfl
      · have hmem : 37 ∉ Utf8.encode c := by
          intro hmem
          rcases Utf8.mem_encode hmem with h | h
          · exact hc (Char.toNat_inj.mp h.symm)
          · exact absurd h (by decide)
        have hbytes : Utf8.encode c ≠ [37] := fun h => hmem (h ▸ List.mem_cons_self)
        rw [templateOf_append, templateOf_eq_self hmem, Utf8.pieces_encode_append,
          Message.fillFrom, Utf8.Piece.bytes, if_neg hbytes, ih]
  | stray a rest hstray ih =>
      have ha : a ≠ 37 := by
        rintro rfl
        cases hstray
      have hbytes : [a] ≠ [37] := fun h => ha (List.cons.inj h).1
      rw [templateOf_cons ha, Utf8.pieces_stray (scalar?_templateOf hstray), Message.fillFrom,
        Utf8.Piece.bytes, if_neg hbytes, ih]
      rfl

theorem fill_eq_self (hb : 37 ∉ b) : Message.fill b [] = b := by
  have hfill := fill_templateOf b
  rwa [templateOf_eq_self hb] at hfill

end Palette

/-- Where no colours are shown templates of texts are filled; a basic colour may leave them as they
are, which shows if there are percent signs. -/
structure Formatter.Plain (format : Formatter) : Prop where
  rgb : ∀ red green blue b, format (Palette.rgb red green blue) (Palette.templateOf b) =
    Message.fill (Palette.templateOf b) []
  basic : ∀ template, 37 ∉ template → format "36" template = Message.fill template []

namespace Palette

variable {k : Kind} {a : Accent} {b : Bytes} {format : Formatter}

theorem formatter_plain : (formatter false).Plain := ⟨fun _ _ _ _ => rfl, fun _ _ => rfl⟩

/-- Only the payloads of truth values have a basic colour. -/
theorem code?_cases (k : Kind) (a : Accent) :
    code? k a = none ∨ (∃ red green blue, code? k a = some (rgb red green blue)) ∨
      (a = .payload ∧ k = .booleanLiteral ∧ code? k a = some "36") := by
  cases a with
  | kind =>
      refine .inr (.inl ?_)
      simp only [code?, kindCode]
      split
      · exact ⟨_, _, _, rfl⟩
      split
      · exact ⟨_, _, _, rfl⟩
      · exact ⟨_, _, _, rfl⟩
  | payload =>
      cases k
      case booleanLiteral => exact .inr (.inr ⟨rfl, rfl, rfl⟩)
      all_goals first
        | exact .inl rfl
        | exact .inr (.inl ⟨_, _, _, rfl⟩)

theorem paintWith_plain (hformat : format.Plain)
    (hbasic : a = .payload → k = .booleanLiteral → 37 ∉ b) : paintWith format k a b = b := by
  rw [paintWith]
  rcases code?_cases k a with hcode | ⟨red, green, blue, hcode⟩ | ⟨ha, hk, hcode⟩ <;> rw [hcode]
  · exact (hformat.rgb red green blue b).trans (fill_templateOf b)
  · have hb := hbasic ha hk
    calc format "36" (templateOf b)
        = format "36" b := by rw [templateOf_eq_self hb]
      _ = Message.fill b [] := hformat.basic b hb
      _ = b := fill_eq_self hb

theorem paintWith_plain_kind (hformat : format.Plain) (k : Kind) (b : Bytes) :
    paintWith format k .kind b = b :=
  paintWith_plain hformat nofun

end Palette

/-- Nothing, or a payload behind a blank; the words of truth values hold no percent sign. -/
theorem Head.labelPayload_cases (h : Head) :
    h.labelPayload = [] ∨ ∃ payload, h.labelPayload = 32 :: payload ∧
      (h.kind = .booleanLiteral → 37 ∉ payload) := by
  cases h with
  | boolean v => exact .inr ⟨_, rfl, fun _ => by cases v <;> decide⟩
  | integer | float | string | identifier | unary | binary | member => exact .inr ⟨_, rfl, nofun⟩
  | _ => exact .inl rfl

namespace Tree

variable {format : Formatter}

/-- What is cut off in front of a payload is put back. -/
theorem paintedLabel_eq (hformat : format.Plain) (t : Tree) :
    t.paintedLabel (Palette.paintWith format) = t.label := by
  cases t with
  | absent => rfl
  | node h cs =>
      rw [paintedLabel, Palette.paintWith_plain_kind hformat, label, Head.label]
      rcases h.labelPayload_cases with hpayload | ⟨payload, hpayload, hbasic⟩ <;> rw [hpayload]
      · have hprefix : ¬ (Bytes.ofString h.kind.name ++ [32]).isPrefixOf
            (Bytes.ofString h.kind.name ++ []) = true := by
          rw [List.isPrefixOf_iff_prefix]
          intro hprefix
          simpa using hprefix.length_le
        simp only [if_neg hprefix]
      · have hlead : Bytes.ofString h.kind.name ++ 32 :: payload =
            (Bytes.ofString h.kind.name ++ [32]) ++ payload := by simp
        have hprefix : (Bytes.ofString h.kind.name ++ [32]).isPrefixOf
            (Bytes.ofString h.kind.name ++ 32 :: payload) = true := by
          rw [List.isPrefixOf_iff_prefix, hlead]
          exact List.prefix_append _ _
        simp only [if_pos hprefix]
        rw [hlead, List.drop_left, Palette.paintWith_plain hformat fun _ => hbasic]
        simp

theorem paintedOutline_eq (hformat : format.Plain) (t : Tree) :
    t.paintedOutline (Palette.paintWith format) = t.outline := by
  simp only [paintedOutline, outline, paintedLabel_eq hformat]

theorem paintAs_eq (hformat : format.Plain) (t : Tree) (b : Bytes) :
    t.paintAs (Palette.paintWith format) b = b := by
  rw [paintAs]
  split
  · rfl
  · exact Palette.paintWith_plain_kind hformat _ b

end Tree

theorem Change.paintedText_eq {format : Formatter} (hformat : format.Plain) (c : Change) :
    c.paintedText (Palette.paintWith format) = c.text := by
  cases c <;> simp only [paintedText, Tree.paintAs_eq hformat, text]

namespace Session

variable {format : Formatter}

theorem outlineOf_plain (hformat : format.Plain) (t : Tree) :
    outlineOf (some (Palette.paintWith format)) t = t.outline := t.paintedOutline_eq hformat

theorem changeLines_plain (hformat : format.Plain) (cs : List Change) :
    changeLines (some (Palette.paintWith format)) cs = changeLines none cs := by
  simp only [changeLines, Change.paintedText_eq hformat]

theorem paint?_cases {s : Session} (hshows : s.showsColours = false) :
    s.paint? = none ∨ s.paint? = some (Palette.paintWith (Palette.formatter false)) := by
  rw [paint?, hshows]
  split
  · exact .inr rfl
  · exact .inl rfl

/-- With any formatter that shows no colours the painted outline of a tree is its outline, and the
painted changes between valid trees are their changes, whatever the names and texts in the trees
hold. In particular, where the output shows no colours, it does not matter to a session whether
output is coloured. -/
theorem painting_keeps_text (hformat : format.Plain) :
    (∀ t : Tree, outlineOf (some (Palette.paintWith format)) t = t.outline) ∧
    (∀ (limit : Int) (t u : Tree), t.validate limit = .ok () → u.validate limit = .ok () →
      ∃ cs, t.diff limit u = .ok cs ∧
        changeLines (some (Palette.paintWith format)) cs = changeLines none cs) ∧
    ∀ s : Session, s.showsColours = false →
      (∀ t : Tree, outlineOf s.paint? t = t.outline) ∧
      ∀ cs : List Change, changeLines s.paint? cs = changeLines none cs := by
  refine ⟨outlineOf_plain hformat, ?_, ?_⟩
  · intro limit t u ht hu
    obtain ⟨cs, hcs, -⟩ := Tree.exists_diff ht hu
    exact ⟨cs, hcs, changeLines_plain hformat cs⟩
  · intro s hshows
    rcases paint?_cases hshows with hpaint | hpaint <;> rw [hpaint]
    · exact ⟨fun _ => rfl, fun _ => rfl⟩
    · exact ⟨outlineOf_plain Palette.formatter_plain, changeLines_plain Palette.formatter_plain⟩

/-- A block with a truth value, a name that is empty, and a name with percent signs, a line break and
a byte that starts no character. -/
theorem painting_keeps_text_percent :
    let name (n : Bytes) := Tree.node .expression [.node (.identifier n) []]
    let old := Tree.node .block [name [], .node .expression [.node (.boolean true) []]]
    let new := Tree.node .block [name [37, 10, 0xC3, 37, 37, 0xA9, 37, 100]]
    let s : Session := { options := { color := true } }
    Formatter.Plain (Palette.formatter false) ∧
      (old.validate 3 = .ok () ∧ new.validate 3 = .ok () ∧ s.showsColours = false) ∧
      outlineOf (some (Palette.paint false)) old = Bytes.ofString
        ("BlockStatement\n  ExpressionStatement\n    Identifier \n" ++
          "  ExpressionStatement\n    BooleanLiteral true\n") ∧
      (∃ cs, old.diff 3 new = .ok cs ∧
        changeLines (some (Palette.paint false)) cs = changeLines none cs) ∧
      outlineOf s.paint? new = new.outline := by
  intro name old new s
  have hplain : Formatter.Plain (Palette.formatter false) := Palette.formatter_plain
  obtain ⟨houtline, hchanges, hsession⟩ := painting_keeps_text hplain
  have hvalid : old.validate 3 = .ok () ∧ new.validate 3 = .ok () := ⟨rfl, rfl⟩
  refine ⟨hplain, ⟨hvalid.1, hvalid.2, rfl⟩, ?_, hchanges 3 old new hvalid.1 hvalid.2, ?_⟩
  · rw [Palette.paint, houtline, Tree.outline_eq]
    rfl
  · exact (hsession s rfl).1 new

end Session

end Arbor
