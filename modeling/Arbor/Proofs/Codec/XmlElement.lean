import Arbor.Codec.XmlElement
import Arbor.Proofs.Text.Token

/-! What is escaped in an attribute is resolved one character at a time. -/
namespace Arbor.XmlElement

section Text

/-- A text with its entities resolved and its line ends unified. -/
def resolve? (raw : Bytes) : Option Bytes :=
  match split 38 raw with
  | [] => some []
  | first :: parts => (expand parts).map (normalizeLines first ++ ·)

variable {raw : Bytes}

theorem split_eq_cons (sep : UInt8) (b : Bytes) : ∃ p ps, split sep b = p :: ps := by
  cases b with
  | nil => exact ⟨[], [], rfl⟩
  | cons c b =>
      rw [split]
      split
      · exact ⟨_, _, rfl⟩
      · split <;> exact ⟨_, _, rfl⟩

theorem split_append {sep : UInt8} {a b p : Bytes} {ps : List Bytes} (ha : sep ∉ a)
    (hb : split sep b = p :: ps) : split sep (a ++ b) = (a ++ p) :: ps := by
  induction a with
  | nil => exact hb
  | cons c a ih =>
      have hc : c ≠ sep := fun h => ha (h ▸ List.mem_cons_self)
      rw [List.cons_append, split, ih fun h => ha (List.mem_cons_of_mem c h)]
      exact if_neg hc

theorem cut_append {sep : UInt8} {a : Bytes} (ha : sep ∉ a) (b : Bytes) :
    Bytes.cut sep (a ++ sep :: b) = (a, some b) := by
  induction a with
  | nil => exact if_pos rfl
  | cons c a ih =>
      have hc : c ≠ sep := fun h => ha (h ▸ List.mem_cons_self)
      rw [List.cons_append, Bytes.cut, if_neg hc, ih fun h => ha (List.mem_cons_of_mem c h)]

theorem resolve?_cons {c : UInt8} (hamp : c ≠ 38) (hreturn : c ≠ 13) :
    resolve? (c :: raw) = (resolve? raw).map (c :: ·) := by
  obtain ⟨p, ps, hsplit⟩ := split_eq_cons 38 raw
  have hcons : split 38 (c :: raw) = (c :: p) :: ps := by
    rw [split, hsplit]
    exact if_neg hamp
  have hline : normalizeLines (c :: p) = c :: normalizeLines p :=
    normalizeLines.eq_3 c p (fun _ h => absurd h hreturn) hreturn
  rw [resolve?, hcons, resolve?, hsplit]
  dsimp only
  rw [hline, Option.map_map]
  rfl

theorem resolve?_append {a : Bytes} (ha : ∀ c ∈ a, c ≠ 38 ∧ c ≠ 13) :
    resolve? (a ++ raw) = (resolve? raw).map (a ++ ·) := by
  induction a with
  | nil => exact Option.map_id'.symm
  | cons c a ih =>
      obtain ⟨hamp, hreturn⟩ := ha c List.mem_cons_self
      rw [List.cons_append, resolve?_cons hamp hreturn,
        ih fun d hd => ha d (List.mem_cons_of_mem c hd), Option.map_map]
      rfl

theorem resolve?_entity (name : Bytes) {e : Bytes} (hamp : 38 ∉ name) (hend : 59 ∉ name)
    (hname : entity? name = some e) :
    resolve? (38 :: (name ++ 59 :: raw)) = (resolve? raw).map (e ++ ·) := by
  obtain ⟨p, ps, hsplit⟩ := split_eq_cons 38 raw
  have hrest : split 38 (59 :: raw) = (59 :: p) :: ps := by
    rw [split, hsplit]
    rfl
  have hparts : split 38 (38 :: (name ++ 59 :: raw)) = [] :: (name ++ 59 :: p) :: ps := by
    rw [split, split_append hamp hrest]
    rfl
  rw [resolve?, hparts, resolve?, hsplit]
  dsimp only
  rw [expand, cut_append hend]
  dsimp only
  rw [hname]
  cases expand ps with
  | none => rfl
  | some rest => simp [normalizeLines, List.append_assoc]

/-- An escaped character is resolved. -/
theorem resolve?_escapeChar (c : Char) :
    resolve? (escapeChar c ++ raw) = (resolve? raw).map (Utf8.encode c ++ ·) := by
  unfold escapeChar
  split
  · exact resolve?_entity [35, 51, 52] (by decide) (by decide) rfl
  · exact resolve?_entity [35, 51, 57] (by decide) (by decide) rfl
  · exact resolve?_entity [97, 109, 112] (by decide) (by decide) rfl
  · exact resolve?_entity [108, 116] (by decide) (by decide) rfl
  · exact resolve?_entity [103, 116] (by decide) (by decide) rfl
  · exact resolve?_entity [35, 120, 57] (by decide) (by decide) rfl
  · exact resolve?_entity [35, 120, 65] (by decide) (by decide) rfl
  · exact resolve?_entity [35, 120, 68] (by decide) (by decide) rfl
  next _ _ hamp _ _ _ _ hreturn =>
    refine resolve?_append ?_
    intro x hx
    rcases Utf8.mem_encode hx with hsame | hhigh
    · refine ⟨?_, ?_⟩
      · rintro rfl
        exact hamp (Char.toNat_inj.mp hsame.symm)
      · rintro rfl
        exact hreturn (Char.toNat_inj.mp hsame.symm)
    · refine ⟨?_, ?_⟩ <;> (rintro rfl; simp at hhigh)

theorem resolve?_escape {b : Bytes} (hb : Utf8.isValid b = true) :
    resolve? (escape b) = some b := by
  have hchars : ∀ cs : List Char, resolve? (cs.flatMap escapeChar) = some (Utf8.ofChars cs) := by
    intro cs
    induction cs with
    | nil => rfl
    | cons c cs ih =>
        rw [List.flatMap_cons, resolve?_escapeChar, ih]
        rfl
  rw [escape, hchars, Utf8.ofChars_chars hb]

theorem mem_escape {b : Bytes} {x : UInt8} (hx : x ∈ escape b) : x ≠ 34 ∧ x ≠ 60 ∧ x ≠ 62 := by
  obtain ⟨c, -, hc⟩ := List.mem_flatMap.mp hx
  have hlist : ∀ name : Bytes, name.all (fun y => y ≠ 34 ∧ y ≠ 60 ∧ y ≠ 62) = true → x ∈ name →
      x ≠ 34 ∧ x ≠ 60 ∧ x ≠ 62 :=
    fun name hall hmem => of_decide_eq_true (List.all_eq_true.mp hall x hmem)
  unfold escapeChar at hc
  split at hc
  · exact hlist _ (by decide) hc
  · exact hlist _ (by decide) hc
  · exact hlist _ (by decide) hc
  · exact hlist _ (by decide) hc
  · exact hlist _ (by decide) hc
  · exact hlist _ (by decide) hc
  · exact hlist _ (by decide) hc
  · exact hlist _ (by decide) hc
  next hquote _ _ hless hgreater _ _ _ =>
    rcases Utf8.mem_encode hc with hsame | hhigh
    · refine ⟨?_, ?_, ?_⟩
      · rintro rfl
        exact hquote (Char.toNat_inj.mp hsame.symm)
      · rintro rfl
        exact hless (Char.toNat_inj.mp hsame.symm)
      · rintro rfl
        exact hgreater (Char.toNat_inj.mp hsame.symm)
    · refine ⟨?_, ?_, ?_⟩ <;> (rintro rfl; simp at hhigh)

theorem hasPart_eq_false {part b : Bytes} {c : UInt8} (hc : c ∈ part) (hb : c ∉ b) :
    Bytes.hasPart part b = false := by
  induction b with
  | nil =>
      rw [Bytes.hasPart, List.isEmpty_eq_false_iff]
      exact List.ne_nil_of_mem hc
  | cons d b ih =>
      have hprefix : part.isPrefixOf (d :: b) = false := by
        rw [Bool.eq_false_iff, ne_eq, List.isPrefixOf_iff_prefix]
        exact fun h => hb (h.subset hc)
      rw [Bytes.hasPart, hprefix, ih fun h => hb (List.mem_cons_of_mem d h)]
      rfl

/-- Without an angle there is nothing that may not stand in a text. -/
theorem unescape?_eq {text : Bytes} (hangle : 62 ∉ raw) (hresolve : resolve? raw = some text)
    (htext : isText text = true) : unescape? raw = some text := by
  obtain ⟨p, ps, hsplit⟩ := split_eq_cons 38 raw
  have hpart : Bytes.hasPart (Bytes.ofString "]]>") raw = false :=
    hasPart_eq_false (c := 62) (by decide) hangle
  rw [resolve?, hsplit] at hresolve
  obtain ⟨rest, hrest, rfl⟩ := Option.map_eq_some_iff.mp hresolve
  rw [unescape?, hpart, hsplit]
  simp [hrest, htext]

theorem isText_ascii {b : Bytes} (hb : ∀ c ∈ b, c < 0x80)
    (hchars : ∀ c ∈ b, isXmlChar (Char.ofNat c.toNat) = true) : isText b = true := by
  rw [isText, Utf8.isValid_ascii hb, Utf8.chars_ascii hb, List.all_map]
  exact List.all_eq_true.mpr hchars

/-- How a value stands between the quotes of an attribute. -/
structure Stands (raw value : Bytes) : Prop where
  no_quote : 34 ∉ raw
  no_angle : 60 ∉ raw
  reads : unescape? raw = some value

theorem Stands.escape {b : Bytes} (hb : isText b = true) : Stands (escape b) b := by
  have hvalid : Utf8.isValid b = true := (Bool.and_eq_true_iff.mp hb).1
  exact ⟨fun h => (mem_escape h).1 rfl, fun h => (mem_escape h).2.1 rfl,
    unescape?_eq (fun h => (mem_escape h).2.2 rfl) (resolve?_escape hvalid) hb⟩

theorem unescape?_plain (hascii : ∀ c ∈ raw, c < 0x80)
    (hchars : ∀ c ∈ raw, isXmlChar (Char.ofNat c.toNat) = true)
    (hplain : ∀ c ∈ raw, c ≠ 38 ∧ c ≠ 13 ∧ c ≠ 62) : unescape? raw = some raw := by
  refine unescape?_eq (fun h => (hplain 62 h).2.2 rfl) ?_ (isText_ascii hascii hchars)
  have hresolve := @resolve?_append [] raw fun c hc => ⟨(hplain c hc).1, (hplain c hc).2.1⟩
  rw [List.append_nil] at hresolve
  rw [hresolve]
  simp [resolve?, split, expand, normalizeLines]

theorem isXmlChar_tokenByte {c : UInt8} (hc : Bytes.isTokenByte c = true) :
    isXmlChar (Char.ofNat c.toNat) = true := by
  obtain ⟨hlow, hhigh⟩ := Bytes.isTokenByte_toNat hc
  have hnat : (Char.ofNat c.toNat).toNat = c.toNat := Utf8.toNat_ofNat_of_valid (.inl (by omega))
  simp only [isXmlChar, hnat]
  simp
  omega

theorem Stands.token {b : Bytes} (hb : b.IsToken) : Stands b b := by
  refine ⟨hb.not_mem rfl, hb.not_mem rfl, unescape?_plain hb.ascii ?_ ?_⟩
  · exact fun c hc => isXmlChar_tokenByte (hb c hc)
  · intro c hc
    have hne : ∀ d, Bytes.isTokenByte d = false → c ≠ d := fun d =>
      Bytes.ne_of_isTokenByte (hb c hc)
    exact ⟨hne 38 rfl, hne 13 rfl, hne 62 rfl⟩

end Text

section StartTag

variable {name raw value rest : Bytes} {fuel : Nat}

theorem name?_word (hname : name.IsWord) (hrest : ∀ c, rest.head? = some c → isNameByte c = false)
    (hne : rest ≠ []) : name? (name ++ rest) = some (name, rest) := by
  have hbytes : ∀ c ∈ name, isNameByte c = true := by
    intro c hc
    simp [isNameByte, hname.letters c hc]
  have hstart : isNameStart name = true := by
    obtain ⟨c, cs, rfl, hlow, -⟩ := hname.exists_cons
    simp only [isNameStart, UInt8.le_iff_toNat_le, ← UInt8.toNat_inj]
    simp
    omega
  rw [name?, Bytes.span_append hbytes hrest]
  simp [hstart, hname.isValid, hne]

theorem qualified?_word (hname : name.IsWord) (rest : Bytes)
    (hrest : ∀ c, rest.head? = some c → isNameByte c = false) (hne : rest ≠ []) :
    qualified? (name ++ rest) = some (name, rest) := by
  have hcolon : name.count 58 = 0 := List.count_eq_zero.mpr (hname.not_mem (by decide))
  rw [qualified?, name?_word hname hrest hne]
  simp [hcolon]

theorem localName_word (hname : name.IsWord) : localName name = name := by
  have hcut : ∀ b : Bytes, 58 ∉ b → Bytes.cut 58 b = (b, none) := by
    intro b hb
    induction b with
    | nil => rfl
    | cons c b ih =>
        have hc : c ≠ 58 := fun h => hb (h ▸ List.mem_cons_self)
        rw [Bytes.cut, if_neg hc, ih fun h => hb (List.mem_cons_of_mem c h)]
  rw [localName, hcut name (hname.not_mem (by decide))]

theorem skipSpace_cons {c : UInt8} (hc : isSpace c = false) (b : Bytes) :
    skipSpace (c :: b) = c :: b :=
  List.dropWhile_cons_of_neg (by simp [hc])

theorem attributeValue?_quoted (hvalue : Stands raw value) (rest : Bytes) :
    attributeValue? (34 :: (raw ++ 34 :: rest)) = some (value, rest) := by
  have hspan : (raw ++ 34 :: rest).span (fun c => decide (c ≠ 34)) = (raw, 34 :: rest) := by
    refine Bytes.span_append ?_ ?_
    · intro c hc
      exact decide_eq_true fun h => hvalue.no_quote (h ▸ hc)
    · rintro c ⟨⟩
      rfl
  have helem : raw.elem 60 = false := by
    rw [List.elem_eq_contains, List.contains_eq_mem, decide_eq_false_iff_not]
    exact hvalue.no_angle
  simp only [attributeValue?, hspan, helem, hvalue.reads]
  rfl

def attributeText (name raw : Bytes) : Bytes := 32 :: (name ++ [61, 34] ++ raw ++ [34])

theorem attributes?_attribute (hname : name.IsWord) (hvalue : Stands raw value) :
    attributes? (fuel + 1) (attributeText name raw ++ rest) =
      (attributes? fuel rest).map fun r => ((name, value) :: r.1, r.2) := by
  obtain ⟨c, cs, hcs, hne⟩ := hname.exists_cons_ne
  have htext : attributeText name raw ++ rest =
      32 :: (name ++ 61 :: (34 :: (raw ++ 34 :: rest))) := by
    simp [attributeText]
  have hspace : skipSpace (32 :: (name ++ 61 :: (34 :: (raw ++ 34 :: rest)))) =
      name ++ 61 :: (34 :: (raw ++ 34 :: rest)) := by
    have hc : isSpace c = false := by
      simp [isSpace, hne]
    rw [skipSpace, List.dropWhile_cons_of_pos rfl, ← skipSpace, hcs, List.cons_append,
      skipSpace_cons hc]
  have hname? := qualified?_word hname (61 :: (34 :: (raw ++ 34 :: rest)))
    (by rintro c ⟨⟩; rfl) (List.cons_ne_nil _ _)
  rw [htext, attributes?, hspace]
  split
  next heq =>
    rw [hcs] at heq
    exact absurd (List.cons.inj heq).1 (hne 47 (by decide))
  next heq =>
    rw [hcs] at heq
    exact absurd (List.cons.inj heq).1 (hne 62 (by decide))
  next =>
    simp only [hname?, Option.bind_eq_bind, Option.bind_some]
    have hequals : isSpace 61 = false := rfl
    have hquote : isSpace 34 = false := rfl
    simp only [skipSpace_cons hequals, skipSpace_cons hquote, attributeValue?_quoted hvalue,
      localName_word hname, Option.bind_some]
    cases attributes? fuel rest <;> rfl

theorem attributes?_flatMap {α : Type} {as : List α} {name raw value : α → Bytes}
    (has : ∀ a ∈ as, (name a).IsWord ∧ Stands (raw a) (value a)) (hfuel : as.length < fuel) :
    attributes? fuel (as.flatMap (fun a => attributeText (name a) (raw a)) ++ 62 :: rest) =
      some (as.map fun a => (name a, value a), false, rest) := by
  induction as generalizing fuel with
  | nil =>
      cases fuel with
      | zero => cases hfuel
      | succ fuel => rfl
  | cons a as ih =>
      cases fuel with
      | zero => cases hfuel
      | succ fuel =>
          obtain ⟨hname, hvalue⟩ := has a List.mem_cons_self
          rw [List.flatMap_cons, List.append_assoc, attributes?_attribute hname hvalue,
            ih (fun b hb => has b (List.mem_cons_of_mem a hb)) (by simpa using hfuel)]
          rfl

end StartTag

section Content

variable {name b rest : Bytes}

/-- What stands after an angle bracket is read as an element, with fuel for each of its bytes. -/
structure ReadsElement (b : Bytes) (e : XmlElement) (rest : Bytes) : Prop where
  length_le : rest.length ≤ b.length
  reads : ∀ fuel, b.length ≤ fuel → element? fuel b = some (e, rest)

structure ReadsContent (name b : Bytes) (es : List XmlElement) (rest : Bytes) : Prop where
  length_le : rest.length ≤ b.length
  reads : ∀ fuel, b.length ≤ fuel → content? fuel name b = some (es, rest)

theorem ReadsContent.close (hname : name.IsWord) (rest : Bytes) :
    ReadsContent name (60 :: 47 :: (name ++ 62 :: rest)) [] rest := by
  refine ⟨by simp; omega, ?_⟩
  intro fuel hfuel
  cases fuel with
  | zero => cases hfuel
  | succ fuel =>
      have hname? := qualified?_word hname (62 :: rest) (by rintro c ⟨⟩; rfl)
        (List.cons_ne_nil _ _)
      rw [content?, hname?]
      simp only [Option.bind_eq_bind, Option.bind_some]
      rw [skipSpace_cons rfl]
      simp

theorem ReadsContent.child {c : UInt8} {e : XmlElement} {es : List XmlElement} {more : Bytes}
    (hc : c ≠ 47 ∧ c ≠ 63 ∧ c ≠ 33) (he : ReadsElement (c :: b) e more)
    (hes : ReadsContent name more es rest) :
    ReadsContent name (60 :: c :: b) (e :: es) rest := by
  have hlength := he.length_le
  refine ⟨by have := hes.length_le; simp at hlength ⊢; omega, ?_⟩
  intro fuel hfuel
  cases fuel with
  | zero => cases hfuel
  | succ fuel =>
      have hfuel : (c :: b).length ≤ fuel := Nat.le_of_succ_le_succ hfuel
      rw [content?, he.reads fuel hfuel]
      · simp only [Option.bind_eq_bind, Option.bind_some]
        rw [hes.reads fuel (by omega)]
        rfl
      -- No end tag, instruction or comment starts with this byte.
      all_goals simp [hc]

theorem skipText?_lineBreak (n : Nat) (b : Bytes) :
    skipText? (10 :: (Bytes.blanks n ++ 60 :: b)) = some (60 :: b) := by
  have hblank : ∀ c ∈ (10 :: Bytes.blanks n : Bytes), c = 10 ∨ c = 32 := by
    intro c hc
    rcases List.mem_cons.mp hc with rfl | hc
    · exact .inl rfl
    · exact .inr (List.eq_of_mem_replicate hc)
  have hspan : ((10 :: Bytes.blanks n) ++ 60 :: b).span (fun c => decide (c ≠ 60)) =
      (10 :: Bytes.blanks n, 60 :: b) := by
    refine Bytes.span_append ?_ (by rintro c ⟨⟩; rfl)
    intro c hc
    rcases hblank c hc with rfl | rfl <;> rfl
  have htext : unescape? (10 :: Bytes.blanks n) = some (10 :: Bytes.blanks n) := by
    refine unescape?_plain ?_ ?_ ?_ <;>
      (intro c hc; rcases hblank c hc with rfl | rfl <;> decide)
  rw [← List.cons_append, skipText?, hspan]
  simp only [htext]
  rfl

theorem ReadsContent.lineBreak {es : List XmlElement} (n : Nat)
    (hes : ReadsContent name (60 :: b) es rest) :
    ReadsContent name (10 :: (Bytes.blanks n ++ 60 :: b)) es rest := by
  have hlength := hes.length_le
  refine ⟨by simp at hlength ⊢; omega, ?_⟩
  intro fuel hfuel
  cases fuel with
  | zero => cases hfuel
  | succ fuel =>
      rw [content?, skipText?_lineBreak]
      simp only [Option.bind_eq_bind, Option.bind_some]
      refine hes.reads fuel ?_
      simp at hfuel ⊢
      omega
      all_goals simp

theorem length_le_flatMap {α : Type} (as : List α) (key raw : α → Bytes) :
    as.length ≤ (as.flatMap fun a => attributeText (key a) (raw a)).length := by
  induction as with
  | nil => exact Nat.le_refl 0
  | cons a as ih =>
      rw [List.flatMap_cons, List.length_append, List.length_cons, attributeText, List.length_cons]
      omega

theorem ReadsElement.ofContent {α : Type} (as : List α) {key raw value : α → Bytes}
    {es : List XmlElement} (hname : name.IsWord)
    (has : ∀ a ∈ as, (key a).IsWord ∧ Stands (raw a) (value a))
    (hes : ReadsContent name b es rest) :
    ReadsElement (name ++ (as.flatMap (fun a => attributeText (key a) (raw a)) ++ 62 :: b))
      (.mk name (as.map fun a => (key a, value a)) es) rest := by
  have hlength := hes.length_le
  have hcount := length_le_flatMap as key raw
  have hpos := List.length_pos_of_ne_nil hname.ne_nil
  have hhead : ∀ c, (as.flatMap (fun a => attributeText (key a) (raw a)) ++ 62 :: b).head? =
      some c → isNameByte c = false := by
    cases as with
    | nil =>
        rintro c ⟨⟩
        rfl
    | cons a as =>
        rintro c ⟨⟩
        rfl
  refine ⟨by simp only [List.length_append, List.length_cons]; omega, ?_⟩
  intro fuel hfuel
  simp only [List.length_append, List.length_cons] at hfuel
  cases fuel with
  | zero => omega
  | succ fuel =>
      rw [element?, qualified?_word hname _ hhead (by simp)]
      simp only [Option.bind_eq_bind, Option.bind_some]
      rw [attributes?_flatMap has (by omega)]
      simp only [Option.bind_some, Bool.false_eq_true, if_false]
      rw [hes.reads fuel (by omega), localName_word hname]
      rfl

end Content

section Prolog

variable {fuel : Nat} {b rest : Bytes}

theorem find?_append {c : UInt8} {part front : Bytes} (hfront : c ∉ front) (rest : Bytes) :
    find? (c :: part) (front ++ (c :: part ++ rest)) = some (front, rest) := by
  induction front with
  | nil =>
      have hprefix : (c :: part).isPrefixOf (c :: part ++ rest) = true :=
        List.isPrefixOf_iff_prefix.mpr (List.prefix_append _ _)
      rw [List.nil_append, List.cons_append, find?, ← List.cons_append, hprefix, if_pos rfl,
        List.drop_left]
  | cons d front ih =>
      have hd : c ≠ d := fun h => hfront (h ▸ List.mem_cons_self)
      have hprefix : (c :: part).isPrefixOf (d :: (front ++ (c :: part ++ rest))) = false := by
        simp [List.isPrefixOf, hd]
      rw [List.cons_append, find?, hprefix, ih fun h => hfront (List.mem_cons_of_mem d h)]
      rfl

theorem skipInstruction?_declaration {content : Bytes} {c : UInt8} (hc : isSpace c = false)
    (hend : 63 ∉ c :: content) (hcontent : isDeclaration (c :: content) = true) (rest : Bytes) :
    skipInstruction? (Bytes.ofString "xml" ++ 32 :: (c :: content ++ (63 :: [62] ++ rest))) =
      some rest := by
  have hname : (Bytes.ofString "xml").IsWord := by decide
  have hspace : skipSpace (32 :: (c :: content ++ (63 :: [62] ++ rest))) =
      c :: content ++ (63 :: [62] ++ rest) := by
    rw [skipSpace, List.dropWhile_cons_of_pos rfl, ← skipSpace, List.cons_append,
      skipSpace_cons hc]
  have hpart : Bytes.ofString "?>" = 63 :: [62] := rfl
  rw [skipInstruction?, name?_word hname (by rintro d ⟨⟩; rfl) (List.cons_ne_nil _ _)]
  simp only [Option.bind_eq_bind, Option.bind_some]
  rw [hspace, hpart, find?_append hend]
  simp [hcontent]

theorem prolog?_instruction :
    prolog? (fuel + 1) (60 :: 63 :: b) = (skipInstruction? b).bind (prolog? fuel) := by
  rw [prolog?]
  rfl

theorem prolog?_text {c : UInt8} (hc : c ≠ 60) :
    prolog? (fuel + 1) (c :: b) = (skipText? (c :: b)).bind (prolog? fuel) := by
  rw [prolog?]
  · rfl
  all_goals simp [hc]

/-- The root element ends the reading. -/
theorem prolog?_element {c : UInt8} {e : XmlElement} (hc : c ≠ 47 ∧ c ≠ 63 ∧ c ≠ 33)
    (he : ReadsElement (c :: b) e rest) : prolog? (fuel + 1) (60 :: c :: b) = some e := by
  rw [prolog?, he.reads _ (by omega)]
  · rfl
  all_goals simp [hc]

end Prolog

end Arbor.XmlElement
