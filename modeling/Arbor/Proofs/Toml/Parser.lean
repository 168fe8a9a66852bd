import Arbor.Codec.Toml
import Arbor.Proofs.Number.Spelling

/-! TOML lines are read as they are written, whatever lines follow. -/
namespace Arbor.Toml

variable {rest : Bytes}

theorem skipBlank_cons {c : UInt8} (hc : c ≠ 32 ∧ c ≠ 9) (b : Bytes) :
    skipBlank (c :: b) = c :: b :=
  List.dropWhile_cons_of_neg (by simp [hc])

theorem skipBlank_blanks {c : UInt8} (n : Nat) (hc : c ≠ 32 ∧ c ≠ 9) (b : Bytes) :
    skipBlank (Bytes.blanks n ++ c :: b) = c :: b := by
  refine Bytes.dropWhile_append ?_ ?_
  · intro d hd
    rw [List.eq_of_mem_replicate hd]
    rfl
  · rintro d ⟨⟩
    simp [hc]

theorem after?_append (w : String) (rest : Bytes) :
    after? w (Bytes.ofString w ++ rest) = some rest := by
  have hprefix : (Bytes.ofString w).isPrefixOf (Bytes.ofString w ++ rest) = true :=
    List.isPrefixOf_iff_prefix.mpr (List.prefix_append _ _)
  rw [after?, hprefix, if_pos rfl, List.drop_left]

section Text

variable {b : Bytes}

theorem literal?_append (hb : isLiteral b = true) (rest : Bytes) :
    literal? (b ++ 39 :: rest) = some (b, rest) := by
  induction b with
  | nil => rfl
  | cons c b ih =>
      obtain ⟨hc, hmore⟩ := Bool.and_eq_true_iff.mp (List.all_cons.symm.trans hb)
      obtain ⟨hquote, hcontrol⟩ := Bool.and_eq_true_iff.mp hc
      rw [List.cons_append, literal?, ih hmore]
      · rw [if_neg (by simpa using hcontrol)]
        rfl
      · simpa using hquote

theorem basic?_short {letter c : UInt8} (hletter : letter ≠ 117 ∧ letter ≠ 85)
    (hc : shortEscape? letter = some c) :
    basic? (92 :: letter :: rest) = (basic? rest).map fun r => (c :: r.1, r.2) := by
  rw [basic?, hc]
  · cases basic? rest <;> rfl
  all_goals simp [hletter]

theorem basic?_unicode {w x y z : UInt8} {ch : Bytes} (hch : character? [w, x, y, z] = some ch) :
    basic? (92 :: 117 :: w :: x :: y :: z :: rest) =
      (basic? rest).map fun r => (ch ++ r.1, r.2) := by
  rw [basic?, hch]
  cases basic? rest <;> rfl

theorem basic?_plain {c : UInt8} (hquote : c ≠ 34) (hslash : c ≠ 92)
    (hcontrol : isControl c = false) :
    basic? (c :: rest) = (basic? rest).map fun r => (c :: r.1, r.2) := by
  rw [basic?]
  · rw [hcontrol, if_neg Bool.false_ne_true]
    cases basic? rest <;> rfl
  all_goals simp [hquote, hslash]

theorem character?_control {c : UInt8} (hc : isControl c = true) :
    character? (Bytes.hexFixed Bytes.upperHexDigit 4 c.toNat) = some [c] := by
  have hall : ∀ n < 128, isControl (UInt8.ofNat n) = true →
      character? (Bytes.hexFixed Bytes.upperHexDigit 4 n) = some [UInt8.ofNat n] := by
    decide
  have hlt : c.toNat < 128 := by
    simp only [isControl, Bool.or_eq_true, Bool.and_eq_true, decide_eq_true_eq,
      UInt8.lt_iff_toNat_lt, ← UInt8.toNat_inj, UInt8.reduceToNat] at hc
    omega
  have hsame := hall c.toNat hlt
  rw [UInt8.ofNat_toNat] at hsame
  exact hsame hc

theorem basic?_escapeByte (c : UInt8) (rest : Bytes) :
    basic? (escapeByte c ++ rest) = (basic? rest).map fun r => (c :: r.1, r.2) := by
  unfold escapeByte
  split
  · exact basic?_short (by decide) rfl
  · exact basic?_short (by decide) rfl
  · exact basic?_short (by decide) rfl
  · exact basic?_short (by decide) rfl
  · exact basic?_short (by decide) rfl
  · exact basic?_short (by decide) rfl
  · exact basic?_short (by decide) rfl
  next hquote hslash =>
    split
    next hcontrol => exact basic?_unicode (character?_control hcontrol)
    next hcontrol => exact basic?_plain hquote hslash (eq_false_of_ne_true hcontrol)

theorem basic?_flatMap (b rest : Bytes) :
    basic? (b.flatMap escapeByte ++ 34 :: rest) = some (b, rest) := by
  induction b with
  | nil => rfl
  | cons c b ih =>
      rw [List.flatMap_cons, List.append_assoc, basic?_escapeByte, ih]
      rfl

theorem head?_escapeByte (c : UInt8) (rest : Bytes) : (escapeByte c ++ rest).head? ≠ some 34 := by
  unfold escapeByte
  split
  · rintro ⟨⟩
  · rintro ⟨⟩
  · rintro ⟨⟩
  · rintro ⟨⟩
  · rintro ⟨⟩
  · rintro ⟨⟩
  · rintro ⟨⟩
  next hquote _ =>
    split
    · rintro ⟨⟩
    · exact fun h => hquote (Option.some.inj h)

theorem threeQuotes_eq_false {quote : UInt8} {b : Bytes} (hb : b.head? ≠ some quote) :
    threeQuotes quote (quote :: b) = false := by
  cases b with
  | nil => simp [threeQuotes]
  | cons c b =>
      have hc : quote ≠ c := fun h => hb (congrArg some h.symm)
      simp [threeQuotes, List.isPrefixOf, hc]

/-- A text is read back from its quotes. -/
theorem text?_writeText (hb : Utf8.isValid b = true) (rest : Bytes) :
    text? true (writeText b ++ 10 :: rest) = some (b, 10 :: rest) := by
  unfold writeText
  split
  next hliteral =>
    have hthree : threeQuotes 39 (39 :: (b ++ 39 :: 10 :: rest)) = false := by
      cases b with
      | nil => rfl
      | cons c b =>
          have hc : c ≠ 39 ∧ isControl c = false := by
            simpa using (List.all_eq_true.mp hliteral) c List.mem_cons_self
          exact threeQuotes_eq_false fun h => hc.1 (Option.some.inj h)
    have hbytes : 39 :: (b ++ [39]) ++ 10 :: rest = 39 :: (b ++ 39 :: 10 :: rest) := by simp
    rw [hbytes, text?]
    simp only [hthree, Bool.and_false, Bool.false_eq_true, if_false, literal?_append hliteral,
      Option.bind_eq_bind, Option.bind_some, hb, if_true]
  next hliteral =>
    have hthree : threeQuotes 34 (34 :: (b.flatMap escapeByte ++ 34 :: 10 :: rest)) = false := by
      cases b with
      | nil => exact absurd rfl hliteral
      | cons c b =>
          rw [List.flatMap_cons, List.append_assoc]
          exact threeQuotes_eq_false (head?_escapeByte c _)
    have hbytes : 34 :: (b.flatMap escapeByte ++ [34]) ++ 10 :: rest =
        34 :: (b.flatMap escapeByte ++ 34 :: 10 :: rest) := by simp
    rw [hbytes, text?]
    simp only [hthree, Bool.and_false, Bool.false_eq_true, if_false, basic?_flatMap,
      Option.bind_eq_bind, Option.bind_some, hb, if_true]

end Text

section Number

open Reading

variable {n : Numeral}

theorem any_text (hexponent : n.exponent = none) :
    (n.text.any fun c => c = 46 || c = 101 || c = 69) = !n.places.isEmpty := by
  rw [Bool.eq_iff_iff, List.any_eq_true, Bool.not_eq_true', List.isEmpty_eq_false_iff,
    ← n.point_mem_text]
  constructor
  · rintro ⟨c, hc, hmark⟩
    simp only [Bool.or_eq_true, decide_eq_true_eq] at hmark
    rcases hmark with (rfl | rfl) | rfl
    · exact hc
    · exact absurd hexponent (n.mark_mem_text.mp hc)
    · exact absurd hc (n.not_mem_text rfl (by decide))
  · exact fun h => ⟨46, h, rfl⟩

/-- After a zero in front comes the point, as no number that is written is zero. -/
theorem point_of_zero (hcoefficient : n.coefficient ≠ 0) {mark : UInt8} {more : Bytes}
    (hbytes : n.whole ++ (n.fraction ++ rest) = 48 :: mark :: more) : mark = 46 := by
  rcases n.whole_head with hwhole | hhead
  · rw [hwhole, Numeral.fraction, if_neg (n.places_ne_nil hcoefficient hwhole)] at hbytes
    exact (List.cons.inj (List.cons.inj hbytes).2).1.symm
  · obtain ⟨c, cs, hcs⟩ := List.exists_cons_of_ne_nil n.whole_ne_nil
    rw [hcs] at hbytes hhead
    exact absurd (congrArg some (List.cons.inj hbytes).1) hhead

theorem number?_text (hexponent : n.exponent = none) (hcoefficient : n.coefficient ≠ 0)
    (rest : Bytes) : number? (n.text ++ 10 :: rest) =
      some (if n.places.isEmpty then .integer n.text else .float n.text, 10 :: rest) := by
  have htake : (n.text ++ 10 :: rest).takeWhile isNumeric = n.text := by
    refine Bytes.takeWhile_append ?_ (by rintro c ⟨⟩; rfl)
    intro c hc
    rcases n.mem_text hc with hdigit | hother
    · simp [isNumeric, hdigit]
    · simp only [List.mem_cons, List.not_mem_nil, or_false] at hother
      rcases hother with rfl | rfl | rfl | rfl <;> rfl
  have hne : n.text ≠ [] := by
    obtain ⟨c, cs, htext, -⟩ := n.exists_text_eq
    simp [htext]
  have hname : (after? "inf" (10 :: rest) <|> after? "nan" (10 :: rest)) = none := rfl
  have hdecimal : number?.decimal (n.text ++ 10 :: rest) n.text =
      some (if n.places.isEmpty then .integer n.text else .float n.text, 10 :: rest) := by
    rw [number?.decimal, List.drop_left]
    simp only [hname, if_neg hne, any_text hexponent]
    cases n.places.isEmpty <;> rfl
  unfold number?
  split
  -- A zero may begin a number in another base: what comes after it here is the point.
  next mark next more heq =>
    have hbytes := heq
    rw [n.text_eq hexponent] at hbytes
    have hmark : mark = 46 := by
      cases hnegative : n.negative with
      | true =>
          rw [hnegative] at hbytes
          cases (List.cons.inj hbytes).1
      | false =>
          rw [hnegative, if_neg Bool.false_ne_true, List.nil_append, List.append_assoc] at hbytes
          exact point_of_zero hcoefficient hbytes
    subst hmark
    rw [htake]
    exact hdecimal
  next => rw [htake, hdecimal]

theorem startsMoment_text (hexponent : n.exponent = none) (rest : Bytes) :
    startsMoment (n.text ++ 10 :: rest) = false := by
  rw [n.text_eq hexponent]
  cases n.negative with
  | true => rfl
  | false =>
      have hbytes : ([] : Bytes) ++ (n.whole ++ n.fraction) ++ 10 :: rest =
          n.whole ++ (n.fraction ++ 10 :: rest) := by simp
      have hnext : ∀ c, (n.fraction ++ 10 :: rest).head? = some c → c = 46 ∨ c = 10 := by
        unfold Numeral.fraction
        split
        · rintro c ⟨⟩
          exact .inr rfl
        · rintro c ⟨⟩
          exact .inl rfl
      have htake : (n.whole ++ (n.fraction ++ 10 :: rest)).takeWhile Bytes.isDigit = n.whole := by
        refine Bytes.takeWhile_append n.whole_digits fun c hc => ?_
        rcases hnext c hc with rfl | rfl <;> rfl
      have hcolon : (n.fraction ++ 10 :: rest).head? ≠ some 58 := by
        intro h
        rcases hnext 58 h with h | h <;> cases h
      have hdash : (n.fraction ++ 10 :: rest).head? ≠ some 45 := by
        intro h
        rcases hnext 45 h with h | h <;> cases h
      rw [if_neg Bool.false_ne_true, hbytes, startsMoment, htake, List.drop_left]
      simp only [hcolon, hdash, decide_false, Bool.and_false, Bool.or_self]

theorem withoutUnderscores?_eq {b : Bytes} (hb : 95 ∉ b) :
    TomlValue.withoutUnderscores? b = some b := by
  induction b with
  | nil => rfl
  | cons c b ih =>
      have hc : c ≠ 95 := fun h => hb (h ▸ List.mem_cons_self)
      rw [TomlValue.withoutUnderscores?, ih fun h => hb (List.mem_cons_of_mem c h)]
      · rfl
      all_goals simp [hc]

theorem integer?_ofInt (v : Int64) : TomlValue.integer? (Bytes.ofInt v.toInt) = some v := by
  obtain ⟨n, htext, hexponent, hplaces, -, -⟩ := Numeral.exists_ofInt v.toInt
  have hbody : n.body = n.whole := by
    rw [Numeral.body, Numeral.fraction, Numeral.tail, if_pos hplaces, hexponent]
    exact List.append_nil _
  have hbar : 95 ∉ n.text := n.not_mem_text rfl (by decide)
  have hdecimal : TomlValue.decimal? n.text = some v := by
    have hhead : n.whole.head? ≠ some 95 := by
      intro h
      exact absurd (n.whole_digits 95 (List.mem_of_head? h)) (by decide)
    unfold TomlValue.decimal?
    rw [n.sign_text, hbody]
    simp only [hhead, if_false, withoutUnderscores?_eq hbar, Option.bind_eq_bind,
      Option.bind_some, n.sign_text, hbody]
    split
    next heq =>
      rcases n.whole_head with hzero | hnonzero
      · rw [hzero] at heq
        cases heq
      · rw [heq] at hnonzero
        exact absurd rfl hnonzero
    next => rw [htext, Reading.integer?_ofInt]
  rw [← htext]
  unfold TomlValue.integer?
  split
  next heq => exact absurd (heq ▸ by simp) (n.not_mem_text (c := 120) rfl (by decide))
  next heq => exact absurd (heq ▸ by simp) (n.not_mem_text (c := 111) rfl (by decide))
  next heq => exact absurd (heq ▸ by simp) (n.not_mem_text (c := 98) rfl (by decide))
  next => exact hdecimal

theorem floatMarksOk_of_areDigits {b : Bytes} (hb : b.AreDigits) (before : UInt8) :
    TomlValue.floatMarksOk before b = true := by
  have hmark : ∀ {c : UInt8}, Bytes.isDigit c = true → c ≠ 46 ∧ c ≠ 95 := by
    intro c hc
    refine ⟨?_, ?_⟩ <;> (rintro rfl; cases hc)
  induction b generalizing before with
  | nil => rfl
  | cons c b ih =>
      have hc := hmark (hb c List.mem_cons_self)
      have hrest := ih (fun d hd => hb d (List.mem_cons_of_mem c hd)) c
      cases b with
      | nil => simp [TomlValue.floatMarksOk, hc]
      | cons d b => simp [TomlValue.floatMarksOk, hc, hrest]

theorem floatMarksOk_point {whole places : Bytes} (hwhole : whole.AreDigits) (hne : whole ≠ [])
    (hplaces : places.AreDigits) (hne' : places ≠ []) (before : UInt8) :
    TomlValue.floatMarksOk before (whole ++ 46 :: places) = true := by
  obtain ⟨p, ps, rfl⟩ := List.exists_cons_of_ne_nil hne'
  have hafter := floatMarksOk_of_areDigits hplaces 46
  have hp := hplaces p List.mem_cons_self
  induction whole generalizing before with
  | nil => exact absurd rfl hne
  | cons c whole ih =>
      have hc := hwhole c List.mem_cons_self
      have hmark : c ≠ 46 ∧ c ≠ 95 := by
        refine ⟨?_, ?_⟩ <;> (rintro rfl; cases hc)
      cases whole with
      | nil => simp [TomlValue.floatMarksOk, hmark, hc, hp, hafter]
      | cons d whole =>
          have hrest := ih (fun e he => hwhole e (List.mem_cons_of_mem c he))
            (List.cons_ne_nil d whole) c
          rw [List.cons_append] at hrest
          simp [TomlValue.floatMarksOk, hmark, hrest]

theorem floatMarksOk_text (hexponent : n.exponent = none) :
    TomlValue.floatMarksOk 0 n.text = true := by
  have hbody : ∀ before, TomlValue.floatMarksOk before (n.whole ++ n.fraction) = true := by
    intro before
    unfold Numeral.fraction
    split
    next =>
      rw [List.append_nil]
      exact floatMarksOk_of_areDigits n.whole_digits before
    next hne => exact floatMarksOk_point n.whole_digits n.whole_ne_nil n.places_digits hne before
  rw [n.text_eq hexponent]
  split
  next =>
    obtain ⟨c, cs, hcs⟩ := List.exists_cons_of_ne_nil n.whole_ne_nil
    have hrest := hbody 45
    rw [hcs, List.cons_append] at hrest ⊢
    simp [TomlValue.floatMarksOk, hrest]
  next => exact hbody 0

theorem float?_text {x : Binary64} (hspells : n.Spells x) (hexponent : n.exponent = none)
    (hcoefficient : n.coefficient ≠ 0) (hx : x.isZero = false) (hfinite : x.isFinite = true) :
    TomlValue.float? n.text = some x := by
  have hletter : 110 ∉ n.text := n.not_mem_text rfl (by decide)
  have hname : ¬ (n.text = Bytes.ofString "+nan" ∨ n.text = Bytes.ofString "-nan") := by
    rintro (h | h) <;> (rw [h] at hletter; exact hletter (by decide))
  have hclean : n.text.filter (fun c => decide (c ≠ 95)) = n.text := by
    refine List.filter_eq_self.mpr fun c hc => decide_eq_true ?_
    rintro rfl
    exact n.not_mem_text rfl (by decide) hc
  unfold TomlValue.float?
  rw [if_neg hname, floatMarksOk_text hexponent]
  dsimp only
  rw [hclean, if_neg (by decide), n.sign_text]
  split
  next c more heq =>
    rw [Numeral.body, Numeral.tail, hexponent] at heq
    rw [point_of_zero hcoefficient heq]
    exact hspells.float? hx hfinite
  next => exact hspells.float? hx hfinite

end Number

section Value

/-- How a value is read that stands at the end of a line. -/
structure ReadsValue (b : Bytes) (v : TomlValue) : Prop where
  head : ∃ c cs, b = c :: cs ∧ c ≠ 32 ∧ c ≠ 9
  reads : ∀ fuel rest, value? (fuel + 1) (b ++ 10 :: rest) = some (v, 10 :: rest)

theorem ReadsValue.text {b : Bytes} (hb : Utf8.isValid b = true) :
    ReadsValue (writeText b) (.string b) := by
  have hquote : ∃ c cs, writeText b = c :: cs ∧ (c = 34 ∨ c = 39) := by
    unfold writeText
    split
    · exact ⟨_, _, rfl, .inr rfl⟩
    · exact ⟨_, _, rfl, .inl rfl⟩
  obtain ⟨c, cs, htext, hc⟩ := hquote
  refine ⟨⟨c, cs, htext, by rcases hc with rfl | rfl <;> decide⟩, ?_⟩
  intro fuel rest
  have hread := text?_writeText hb rest
  rw [htext, List.cons_append] at hread ⊢
  have hquoted : (c = 34 || c = 39 : Bool) = true := by simpa using hc
  rw [value?, if_pos hquoted, hread]
  rfl

theorem ReadsValue.true : ReadsValue (Bytes.ofString "true") (.bool true) := by
  refine ⟨⟨116, [114, 117, 101], rfl, by decide⟩, ?_⟩
  intro fuel rest
  have hafter := after?_append "true" (10 :: rest)
  have hbytes : Bytes.ofString "true" ++ 10 :: rest = 116 :: ([114, 117, 101] ++ 10 :: rest) := rfl
  rw [hbytes] at hafter ⊢
  rw [value?, hafter]
  rfl

theorem ReadsValue.numeral {n : Numeral} (hexponent : n.exponent = none)
    (hcoefficient : n.coefficient ≠ 0) :
    ReadsValue n.text (if n.places.isEmpty then .integer n.text else .float n.text) := by
  obtain ⟨c, cs, htext, hc⟩ := n.exists_text_eq
  have hne : ∀ d : UInt8, Bytes.isDigit d = false → d ≠ 45 → c ≠ d := by
    rintro d hd hdash rfl
    rcases hc with rfl | hc
    · exact hdash rfl
    · exact Bool.noConfusion (hc.symm.trans hd)
  refine ⟨⟨c, cs, htext, hne 32 rfl (by decide), hne 9 rfl (by decide)⟩, ?_⟩
  intro fuel rest
  have hnumber := number?_text hexponent hcoefficient rest
  have hmoment := startsMoment_text hexponent rest
  have hbytes : n.text ++ 10 :: rest = c :: (cs ++ 10 :: rest) := by rw [htext, List.cons_append]
  rw [hbytes] at hnumber hmoment ⊢
  rw [value?, hmoment, hnumber]
  simp [hne 34 rfl (by decide), hne 39 rfl (by decide), hne 116 rfl (by decide),
    hne 102 rfl (by decide), hne 91 rfl (by decide), hne 123 rfl (by decide)]

/-- The value of a number's text, which is an integer's if it has no point. -/
def floatValue (x : Binary64) : TomlValue :=
  if x.isFinite && !(writeFloat x).any fun c => c = 46 || c = 101 || c = 69 then
    .integer (writeFloat x)
  else .float (writeFloat x)

section Float

variable {x : Binary64}

theorem floatValue_eq (x : Binary64) :
    floatValue x = .integer (writeFloat x) ∨ floatValue x = .float (writeFloat x) := by
  unfold floatValue
  split
  · exact .inl rfl
  · exact .inr rfl

/-- A finite number is written as a numeral without an exponent. -/
theorem exists_numeral_writeFloat (hx : x.isZero = false) (hfinite : x.isFinite = true) :
    ∃ n : Numeral, n.text = writeFloat x ∧ n.exponent = none ∧ n.coefficient ≠ 0 ∧ n.Spells x := by
  have hinfinite : x.isInfinite = false := Binary64.isInfinite_of_isFinite hfinite
  unfold writeFloat
  rw [Binary64.isNaN_of_isFinite hfinite, hinfinite, if_neg Bool.false_ne_true,
    if_neg Bool.false_ne_true]
  split
  next hintegral =>
    obtain ⟨n, htext, hexponent, hspells⟩ := Binary64.exists_numeral_integralDigits hintegral
    exact ⟨n, htext, hexponent, hspells.coefficient_ne_zero hx, hspells⟩
  next =>
    obtain ⟨n, htext, hexponent, hspells⟩ := Binary64.exists_numeral_plain hx hfinite
    exact ⟨n, htext, hexponent, hspells.coefficient_ne_zero hx, hspells⟩

theorem writeFloat_of_isNaN (hx : x.isNaN = true) : writeFloat x = "nan" := if_pos hx

theorem writeFloat_of_isInfinite (hx : x.isInfinite = true) :
    writeFloat x = if x.negative then Bytes.ofString "-inf" else Bytes.ofString "inf" := by
  rw [writeFloat, Binary64.isNaN_of_isInfinite hx, hx]
  rfl

theorem floatValue_of_not_isFinite (hx : x.isFinite = false) :
    floatValue x = .float (writeFloat x) := by
  rw [floatValue, hx]
  rfl

theorem float?_writeFloat (hx : x.isZero = false) :
    TomlValue.float? (writeFloat x) = some x.canonical := by
  rcases x.isNaN_or_isInfinite_or_isFinite with hnan | hinfinite | hfinite
  · rw [Binary64.canonical_of_isNaN hnan, writeFloat_of_isNaN hnan]
    rfl
  · rw [Binary64.canonical_infinity hinfinite, writeFloat_of_isInfinite hinfinite]
    cases x.negative <;> rfl
  · obtain ⟨n, htext, hexponent, hcoefficient, hspells⟩ := exists_numeral_writeFloat hx hfinite
    rw [← htext, float?_text hspells hexponent hcoefficient hx hfinite,
      Binary64.canonical_of_isFinite hx hfinite]

theorem ReadsValue.float (hx : x.isZero = false) : ReadsValue (writeFloat x) (floatValue x) := by
  rcases x.isNaN_or_isInfinite_or_isFinite with hnan | hinfinite | hfinite
  · rw [floatValue_of_not_isFinite (Binary64.isFinite_of_isNaN hnan), writeFloat_of_isNaN hnan]
    exact ⟨⟨_, _, rfl, by decide⟩, fun _ _ => rfl⟩
  · rw [floatValue_of_not_isFinite (Binary64.isFinite_of_isInfinite hinfinite),
      writeFloat_of_isInfinite hinfinite]
    cases x.negative with
    | true => exact ⟨⟨_, _, rfl, by decide⟩, fun _ _ => rfl⟩
    | false => exact ⟨⟨_, _, rfl, by decide⟩, fun _ _ => rfl⟩
  · obtain ⟨n, htext, hexponent, hcoefficient, -⟩ := exists_numeral_writeFloat hx hfinite
    have hread := ReadsValue.numeral hexponent hcoefficient
    rw [floatValue, hfinite, ← htext, any_text hexponent, Bool.not_not, Bool.true_and]
    exact hread

end Float

theorem ReadsValue.int {v : Int64} (hv : v ≠ 0) :
    ReadsValue (Bytes.ofInt v.toInt) (.integer (Bytes.ofInt v.toInt)) := by
  obtain ⟨n, htext, hexponent, hplaces, -, hcoefficient⟩ := Numeral.exists_ofInt v.toInt
  have hzero : n.coefficient ≠ 0 := by
    rw [hcoefficient, Int.natAbs_ne_zero]
    intro h
    exact hv (Int64.toInt_inj.mp h)
  have hread := ReadsValue.numeral hexponent hzero
  rw [hplaces, htext] at hread
  exact hread

end Value

section Line

/-- What the lines from here on say, with fuel for each of their bytes. -/
def ReadsLines (b : Bytes) (ss : List TomlStatement) : Prop :=
  ∀ fuel, b.length < fuel → statementsWith? fuel b = some ss

variable {b : Bytes} {ss : List TomlStatement}

theorem ReadsLines.nil : ReadsLines [] [] := by
  intro fuel hfuel
  cases fuel with
  | zero => cases hfuel
  | succ fuel => rfl

theorem ReadsLines.statements? (h : ReadsLines b ss) : statements? b = some ss :=
  h (b.length + 1) (Nat.lt_succ_self _)

theorem lineEnd?_newline (b : Bytes) : lineEnd? (10 :: b) = some b := by
  rw [lineEnd?, skipBlank_cons (by decide)]
  rfl

theorem ReadsLines.empty (h : ReadsLines b ss) : ReadsLines (10 :: b) ss := by
  intro fuel hfuel
  cases fuel with
  | zero => cases hfuel
  | succ fuel =>
      rw [statementsWith?, skipBlank_cons (by decide)]
      simp only [decide_true, Bool.or_true, Bool.true_or, if_true, lineEnd?_newline,
        Option.bind_some]
      exact h fuel (by simpa using hfuel)

theorem keyPart?_word {name : Bytes} (hname : name.IsWord)
    (hrest : ∀ c, rest.head? = some c → isBare c = false) :
    keyPart? (name ++ rest) = some (name, rest) := by
  have hbytes : ∀ c ∈ name, isBare c = true := by
    intro c hc
    simp [isBare, hname.letters c hc]
  obtain ⟨c, cs, hcs, hne⟩ := hname.exists_cons_ne
  have hspan := Bytes.span_append hbytes hrest
  have hc := hbytes c (by simp [hcs])
  rw [hcs, List.cons_append] at hspan ⊢
  rw [keyPart?, hspan]
  simp [hne 34 (by decide), hne 39 (by decide), hc]

theorem key?_word (fuel : Nat) {name : Bytes} (hname : name.IsWord) (rest : Bytes)
    (hrest : ∀ c, rest.head? = some c → isBare c = false)
    (hpoint : (skipBlank rest).head? ≠ some 46) :
    key? (fuel + 1) (name ++ rest) = some ([name], skipBlank rest) := by
  rw [key?, keyPart?_word hname hrest]
  simp only [Option.bind_eq_bind, Option.bind_some]
  split
  next heq =>
    rw [heq] at hpoint
    exact absurd rfl hpoint
  next => rfl

theorem assignment?_word (fuel : Nat) {name value : Bytes} {v : TomlValue} (hname : name.IsWord)
    (hvalue : ReadsValue value v) (b : Bytes) :
    assignment? (fuel + 1) (name ++ 32 :: 61 :: 32 :: (value ++ 10 :: b)) =
      some (.assign [name] v, 10 :: b) := by
  obtain ⟨c, cs, hcs, hc⟩ := hvalue.head
  have hequals : skipBlank (32 :: 61 :: 32 :: (value ++ 10 :: b)) =
      61 :: 32 :: (value ++ 10 :: b) := skipBlank_blanks 1 (by decide) _
  have hstart : skipBlank (32 :: (value ++ 10 :: b)) = value ++ 10 :: b := by
    rw [hcs, List.cons_append]
    exact skipBlank_blanks 1 hc _
  rw [assignment?, key?_word fuel hname _ (by rintro d ⟨⟩; rfl) (by rw [hequals]; rintro ⟨⟩),
    hequals]
  simp only [Option.bind_eq_bind, Option.bind_some, hstart, hvalue.reads]
  rfl

theorem ReadsLines.assign {name value : Bytes} {v : TomlValue} (n : Nat) (hname : name.IsWord)
    (hvalue : ReadsValue value v) (h : ReadsLines b ss) :
    ReadsLines (Bytes.blanks n ++ (name ++ Bytes.ofString " = " ++ value ++ 10 :: b))
      (.assign [name] v :: ss) := by
  intro fuel hfuel
  cases fuel with
  | zero => cases hfuel
  | succ fuel =>
      obtain ⟨c, cs, hcs, hne⟩ := hname.exists_cons_ne
      have hbytes : name ++ Bytes.ofString " = " ++ value ++ 10 :: b =
          name ++ 32 :: 61 :: 32 :: (value ++ 10 :: b) := by
        have hequals : Bytes.ofString " = " = [32, 61, 32] := rfl
        simp [hequals]
      have hread := assignment?_word fuel hname hvalue b
      have hlength : b.length < fuel := by
        simp only [List.length_append, List.length_cons] at hfuel
        omega
      rw [hbytes, hcs, List.cons_append] at *
      rw [statementsWith?, skipBlank_blanks n ⟨hne 32 (by decide), hne 9 (by decide)⟩]
      simp [hne 35 (by decide), hne 10 (by decide), hne 13 (by decide), hne 91 (by decide), hread,
        lineEnd?_newline, h fuel hlength]

theorem join_replicate (name : Bytes) (level : Nat) :
    Bytes.join [46] (List.replicate (level + 2) name) =
      name ++ 46 :: Bytes.join [46] (List.replicate (level + 1) name) := by
  rw [List.replicate_succ, List.replicate_succ, Bytes.join, List.append_assoc,
    ← List.replicate_succ]
  · rfl
  · rintro ⟨⟩

theorem exists_join_eq {c : UInt8} (cs : Bytes) (level : Nat) :
    ∃ more, Bytes.join [46] (List.replicate (level + 1) (c :: cs)) = c :: more := by
  cases level with
  | zero => exact ⟨cs, rfl⟩
  | succ level => exact ⟨_, join_replicate (c :: cs) level⟩

theorem le_length_join (name : Bytes) (level : Nat) :
    level ≤ (Bytes.join [46] (List.replicate (level + 1) name)).length := by
  induction level with
  | zero => exact Nat.zero_le _
  | succ level ih =>
      rw [join_replicate, List.length_append, List.length_cons]
      omega

theorem key?_join {name : Bytes} (hname : name.IsWord) (level fuel : Nat)
    (hfuel : level < fuel) (b : Bytes) :
    key? fuel (Bytes.join [46] (List.replicate (level + 1) name) ++ 93 :: b) =
      some (List.replicate (level + 1) name, 93 :: b) := by
  induction level generalizing fuel with
  | zero =>
      cases fuel with
      | zero => cases hfuel
      | succ fuel =>
          have hbracket : skipBlank (93 :: b) = 93 :: b := skipBlank_cons (by decide) b
          have hread := key?_word fuel hname (93 :: b) (by rintro d ⟨⟩; rfl)
            (by rw [hbracket]; rintro ⟨⟩)
          rw [hbracket] at hread
          exact hread
  | succ level ih =>
      cases fuel with
      | zero => cases hfuel
      | succ fuel =>
          obtain ⟨c, cs, hcs, hne⟩ := hname.exists_cons_ne
          obtain ⟨more, hmore⟩ := exists_join_eq (c := c) cs level
          rw [← hcs] at hmore
          have hrest := ih fuel (by omega)
          rw [join_replicate, List.append_assoc, List.cons_append, key?,
            keyPart?_word hname (by rintro d ⟨⟩; rfl)]
          rw [hmore, List.cons_append] at *
          simp only [Option.bind_eq_bind, Option.bind_some, skipBlank_cons (c := 46) (by decide),
            skipBlank_cons ⟨hne 32 (by decide), hne 9 (by decide)⟩, hrest]
          rfl

theorem ReadsLines.item {name : Bytes} (n level : Nat) (hname : name.IsWord)
    (h : ReadsLines b ss) :
    ReadsLines (Bytes.blanks n ++ (91 :: 91 :: (Bytes.join [46] (List.replicate (level + 1) name) ++
      93 :: 93 :: 10 :: b))) (.item (List.replicate (level + 1) name) :: ss) := by
  intro fuel hfuel
  cases fuel with
  | zero => cases hfuel
  | succ fuel =>
      obtain ⟨c, cs, hcs, hne⟩ := hname.exists_cons_ne
      have hlevel := le_length_join name level
      simp only [List.length_append, List.length_cons] at hfuel
      have hkey := key?_join hname level (fuel + 1) (by omega) (93 :: 10 :: b)
      have hstart : skipBlank (Bytes.join [46] (List.replicate (level + 1) name) ++
          93 :: 93 :: 10 :: b) =
          Bytes.join [46] (List.replicate (level + 1) name) ++ 93 :: 93 :: 10 :: b := by
        obtain ⟨more, hmore⟩ := exists_join_eq (c := c) cs level
        rw [hcs, hmore, List.cons_append, skipBlank_cons ⟨hne 32 (by decide), hne 9 (by decide)⟩]
      have hclose : after? "]]" (93 :: 93 :: 10 :: b) = some (10 :: b) :=
        after?_append "]]" (10 :: b)
      have hheader : header? (fuel + 1) (91 :: 91 :: (Bytes.join [46]
          (List.replicate (level + 1) name) ++ 93 :: 93 :: 10 :: b)) =
          some (.item (List.replicate (level + 1) name), 10 :: b) := by
        rw [header?]
        simp only [hstart, hkey, Option.bind_eq_bind, Option.bind_some, hclose]
        rfl
      rw [statementsWith?, skipBlank_blanks n (by decide)]
      simp [hheader, lineEnd?_newline, h fuel (by omega)]

end Line

end Arbor.Toml
