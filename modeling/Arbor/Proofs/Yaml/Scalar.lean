import Arbor.Codec.Yaml
import Arbor.Proofs.Number.Spelling
import Arbor.Proofs.Text.Quoted

/-! No name or number that is written is taken for a word with another meaning. -/
namespace Arbor

namespace YamlScalar

section Number

variable {n : Numeral}

/-- Digits are read with their sign; with one point they are a floating point number. -/
theorem number?_signed {c : UInt8} {cs : Bytes} (negative : Bool) (hc : Bytes.isDigit c = true)
    (hbar : 95 ∉ cs) (hzero : c = 48 → cs.head? = some 46) :
    number? (if negative then 45 :: c :: cs else c :: cs) =
      if cs.count 46 = 1 then
        (Reading.numeral? (if negative then 45 :: c :: cs else c :: cs)).map float
      else if cs.count 46 ≠ 0 then none
      else (Reading.digits? 10 (c :: cs)).bind (bounded? negative) := by
  have hne : ∀ d, Bytes.isDigit d = false → c ≠ d := by
    rintro d hd rfl
    exact Bool.noConfusion (hc.symm.trans hd)
  have hclean : cs.filter (fun d => !decide (d = 95)) = cs := by
    refine List.filter_eq_self.mpr fun d hd => ?_
    have hd95 : d ≠ 95 := fun h => hbar (h ▸ hd)
    simp [hd95]
  have hcount : (c :: cs).count 46 = cs.count 46 := List.count_cons_of_ne (hne 46 rfl)
  have hoctal : cs.count 46 = 0 → c ≠ 48 := by
    intro hcount hc
    exact List.count_eq_zero.mp hcount (List.mem_of_head? (hzero hc))
  have hbase : ∀ x more, c :: cs = 48 :: x :: more → x = 46 := by
    rintro x more ⟨⟩
    exact Option.some.inj (hzero rfl)
  cases negative <;> unfold number? <;>
    simp [hne 95 rfl, hne 45 rfl, hne 43 rfl, hclean, hcount]
  -- A letter in the second place would name another base, but after a zero comes the point.
  all_goals
    split
    next heq => cases hbase _ _ heq
    next heq => cases hbase _ _ heq
    next heq => cases hbase _ _ heq
    next =>
      split
      next => rfl
      next =>
        split
        next h => rw [if_neg (by simp [hoctal h])]
        next => rfl

/-- A digit comes first, and a zero is followed by the point: a number that is not zero has no other
digit than the one in front of the point if that is a zero. -/
theorem exists_body_eq (n : Numeral) (hcoefficient : n.coefficient ≠ 0) :
    ∃ c cs, n.body = c :: cs ∧ Bytes.isDigit c = true ∧ 95 ∉ cs ∧
      (c = 48 → cs.head? = some 46) ∧ cs.count 46 = if n.places = [] then 0 else 1 := by
  obtain ⟨c, whole, hwhole⟩ := List.exists_cons_of_ne_nil n.whole_ne_nil
  have hbody : n.body = c :: (whole ++ (n.fraction ++ n.tail)) := by
    rw [Numeral.body, hwhole, List.cons_append]
  have hdigit := n.whole_digits c (hwhole ▸ List.mem_cons_self)
  have hnone : ∀ {ds : Bytes}, ds.AreDigits → ds.count 46 = 0 := by
    intro ds hds
    exact List.count_eq_zero.mpr fun h => by cases hds 46 h
  refine ⟨c, _, hbody, hdigit, ?_, ?_, ?_⟩
  · intro hbar
    have hmem : 95 ∈ n.body := hbody ▸ List.mem_cons_of_mem c hbar
    exact (n.ne_of_mem_body hmem).2.1 rfl
  · rintro rfl
    have hzero : n.whole = [48] := by
      rcases n.whole_head with h | h
      · exact h
      · exact absurd (by rw [hwhole]; rfl) h
    obtain rfl : whole = [] := (List.cons.inj (hwhole.symm.trans hzero)).2
    rw [Numeral.fraction, if_neg (n.places_ne_nil hcoefficient hzero)]
    rfl
  · have htail : n.tail.count 46 = 0 := by
      refine List.count_eq_zero.mpr fun h => ?_
      unfold Numeral.tail at h
      cases he : n.exponent with
      | none =>
          rw [he] at h
          cases h
      | some e =>
          rw [he] at h
          exact e.point_not_mem_text h
    have hrest : Bytes.AreDigits whole := fun d hd =>
      n.whole_digits d (hwhole ▸ List.mem_cons_of_mem c hd)
    rw [List.count_append, List.count_append, hnone hrest, htail, Numeral.fraction]
    split
    · rfl
    · rw [List.count_cons_self, hnone n.places_digits]

theorem number?_text (hcoefficient : n.coefficient ≠ 0) :
    number? n.text = if n.places = [] then (Reading.digits? 10 n.body).bind (bounded? n.negative)
      else (Reading.numeral? n.text).map float := by
  obtain ⟨c, cs, hbody, hc, hbar, hzero, hcount⟩ := exists_body_eq n hcoefficient
  have hsigned := number?_signed n.negative hc hbar hzero
  rw [hcount, ← hbody] at hsigned
  rw [Numeral.text, hsigned]
  split <;> simp

def startsNumber : Bytes → Bool
  | 45 :: c :: _ => Bytes.isDigit c
  | c :: _ => Bytes.isDigit c
  | [] => false

theorem startsNumber_text (n : Numeral) : startsNumber n.text = true := by
  obtain ⟨c, whole, hwhole⟩ := List.exists_cons_of_ne_nil n.whole_ne_nil
  have hdigit := n.whole_digits c (hwhole ▸ List.mem_cons_self)
  rw [Numeral.text, Numeral.body, hwhole, List.cons_append]
  split
  · exact hdigit
  · rw [startsNumber]
    · exact hdigit
    · rintro d ds rfl
      cases hdigit

theorem isWord_text (n : Numeral) (words : List String)
    (hwords : ∀ w ∈ words, startsNumber (Bytes.ofString w) = false) :
    isWord n.text words = false := by
  refine List.any_eq_false.mpr fun w hw heq => ?_
  have hstart := startsNumber_text n
  rw [← of_decide_eq_true heq, hwords w hw] at hstart
  cases hstart

theorem ofPlain_text (n : Numeral) : ofPlain n.text = (number? n.text).getD (.text n.text) := by
  unfold ofPlain
  simp only [isWord_text n ["", "~", "null", "Null", "NULL"] (by decide),
    isWord_text n ["true", "True", "TRUE"] (by decide),
    isWord_text n ["false", "False", "FALSE"] (by decide),
    isWord_text n [".nan", ".NaN", ".NAN"] (by decide),
    isWord_text n [".inf", ".Inf", ".INF"] (by decide),
    isWord_text n ["-.inf", "-.Inf", "-.INF"] (by decide), Bool.false_eq_true, if_false]

theorem ofPlain_ofInt {v : Int64} (hv : v ≠ 0) :
    ofPlain (Bytes.ofInt v.toInt) = .integer v.toInt := by
  obtain ⟨n, htext, hexponent, hplaces, hnegative, hcoefficient⟩ := Numeral.exists_ofInt v.toInt
  have hzero : n.coefficient ≠ 0 := by
    rw [hcoefficient, Int.natAbs_ne_zero]
    exact fun h => hv (Int64.toInt_inj.mp h)
  have hbody : n.body = n.whole := by
    rw [Numeral.body, Numeral.fraction, Numeral.tail, if_pos hplaces, hexponent]
    exact List.append_nil _
  have hwhole : n.whole.natOfDigits = v.toInt.natAbs := by
    rw [← hcoefficient, Numeral.coefficient, hplaces, List.append_nil]
  have hlow := v.le_toInt
  have hhigh := v.toInt_lt
  rw [← htext, ofPlain_text, number?_text hzero, if_pos hplaces, hbody,
    Reading.digits?_eq n.whole_ne_nil n.whole_digits, hwhole, Option.bind_some, hnegative]
  have hbounded : bounded? (decide (v.toInt < 0)) v.toInt.natAbs = some (.integer v.toInt) := by
    unfold bounded?
    by_cases hneg : v.toInt < 0
    · rw [decide_eq_true hneg, if_pos rfl, if_pos (by omega), Int.ofNat_natAbs_of_nonpos hneg.le,
        Int.neg_neg]
    · rw [decide_eq_false hneg, if_neg Bool.false_ne_true, if_pos (by omega),
        Int.natAbs_of_nonneg (Int.not_lt.mp hneg)]
  rw [hbounded]
  rfl

/-- A number with a point is read as one, and one with an exponent alone is left as it stands. -/
theorem ofPlain_float {x : Binary64} (hcoefficient : n.coefficient ≠ 0) (hspells : n.Spells x)
    (hmark : n.places ≠ [] ∨ n.exponent ≠ none) (hx : x.isZero = false)
    (hfinite : x.isFinite = true) :
    ofPlain n.text = .float x ∨ ofPlain n.text = .text n.text := by
  rw [ofPlain_text, number?_text hcoefficient]
  split
  next hplaces =>
    obtain ⟨e, he⟩ := Option.ne_none_iff_exists'.mp (hmark.resolve_left fun h => h hplaces)
    have hmem : 101 ∈ n.body := by simp [Numeral.body, Numeral.tail, he, Exponent.text]
    rw [Reading.digits?_eq_none hmem rfl]
    exact .inr rfl
  next =>
    rw [hspells.numeral? hx hfinite]
    exact .inl rfl

end Number

end YamlScalar

namespace Yaml

section Quoted

variable {seen : Bytes} {c : Char}

theorem encodePoint_toNat (c : Char) : encodePoint c.toNat = Utf8.encode c := by
  have hvalid : c.toNat.isValidChar := c.valid
  rw [encodePoint, if_pos hvalid, Char.ofNat_toNat]

theorem pairPoint?_toNat (c : Char) (low : Nat) : pairPoint? c.toNat low = none := by
  have hvalid := Utf8.toNat_valid c
  exact if_neg (by omega)

/-- A byte that is neither a mark nor a line end stands for itself. -/
theorem double?_plain {x : UInt8} (hquote : x ≠ 34) (hslash : x ≠ 92) (hline : x ≠ 10)
    (rest : Bytes) : double? .inside seen (x :: rest) = double? .inside (x :: seen) rest := by
  rw [double?]
  · rw [if_neg hline]
    split <;> rfl
  all_goals simp [hquote, hslash]

theorem double?_plains {b : Bytes} (hb : ∀ x ∈ b, x ≠ 34 ∧ x ≠ 92 ∧ x ≠ 10) (rest : Bytes) :
    double? .inside seen (b ++ rest) = double? .inside (b.reverse ++ seen) rest := by
  induction b generalizing seen with
  | nil => rfl
  | cons x b ih =>
      obtain ⟨hquote, hslash, hline⟩ := hb x List.mem_cons_self
      rw [List.cons_append, double?_plain hquote hslash hline,
        ih fun y hy => hb y (List.mem_cons_of_mem x hy), List.reverse_cons, List.append_assoc]
      rfl

theorem double?_short {letter : UInt8} {b : Bytes}
    (hletter : letter ≠ 120 ∧ letter ≠ 117 ∧ letter ≠ 85 ∧ letter ≠ 10)
    (hb : shortEscape? letter = some b) (rest : Bytes) :
    double? .inside seen (92 :: letter :: rest) = double? .inside (b.reverse ++ seen) rest := by
  rw [double?, hb]
  · rfl
  all_goals simp [hletter]

theorem codePoint?_hexFixed (width : Nat) (h : c.toNat < 16 ^ (width + 1)) :
    codePoint? (Bytes.hexFixed Bytes.hexDigit (width + 1) c.toNat) = some c.toNat := by
  rw [codePoint?, Reading.digits?_hexFixed, Nat.mod_eq_of_lt h]

theorem double?_byte (h : c.toNat < 0x100) (rest : Bytes) :
    double? .inside seen (Quoted.escape 'x' 2 c.toNat ++ rest) =
      double? .inside ((Utf8.encode c).reverse ++ seen) rest := by
  have hpoint := codePoint?_hexFixed 1 h
  rw [← encodePoint_toNat]
  simp only [Quoted.escape, Bytes.hexFixed, List.nil_append, List.cons_append] at hpoint ⊢
  rw [show Bytes.ofChar 'x' = 120 from rfl, double?, hpoint]
  rfl

theorem double?_unit (h : c.toNat < 0x10000) (rest : Bytes) :
    double? .inside seen (Quoted.escape 'u' 4 c.toNat ++ rest) =
      double? .inside ((Utf8.encode c).reverse ++ seen) rest := by
  have hpoint := codePoint?_hexFixed 3 h
  have hnone : ∀ o : Option Nat, o.bind (pairPoint? c.toNat) = none := by
    intro o
    cases o with
    | none => rfl
    | some low => exact pairPoint?_toNat c low
  rw [← encodePoint_toNat]
  simp only [Quoted.escape, Bytes.hexFixed, List.nil_append, List.cons_append] at hpoint ⊢
  rw [show Bytes.ofChar 'u' = 117 from rfl, double?, hpoint]
  simp only [Option.bind_eq_bind, Option.bind_some]
  split
  · rw [hnone]
    rfl
  · rfl

theorem double?_point (c : Char) (rest : Bytes) :
    double? .inside seen (Quoted.escape 'U' 8 c.toNat ++ rest) =
      double? .inside ((Utf8.encode c).reverse ++ seen) rest := by
  have hlt : c.toNat < 16 ^ 8 := by
    have := Utf8.toNat_valid c
    omega
  have hpoint := codePoint?_hexFixed 7 hlt
  rw [← encodePoint_toNat]
  simp only [Quoted.escape, Bytes.hexFixed, List.nil_append, List.cons_append] at hpoint ⊢
  rw [show Bytes.ofChar 'U' = 85 from rfl, double?, hpoint]
  rfl

theorem double?_stands {b : Bytes} (h : Quoted.Stands c b) (rest : Bytes) :
    double? .inside seen (b ++ rest) = double? .inside ((Utf8.encode c).reverse ++ seen) rest := by
  cases h with
  | mark h =>
      rcases h with rfl | rfl
      · exact double?_short (by decide) rfl rest
      · exact double?_short (by decide) rfl rest
  | printable hquote hslash h =>
      refine double?_plains (fun x hx => ?_) rest
      have hlow := Quoted.isPrintable_low h
      rcases Utf8.mem_encode hx with hsame | hhigh
      · refine ⟨?_, ?_, ?_⟩
        · rintro rfl
          exact hquote (Char.toNat_inj.mp hsame.symm)
        · rintro rfl
          exact hslash (Char.toNat_inj.mp hsame.symm)
        · rintro rfl
          rw [← hsame] at hlow
          simp at hlow
      · refine ⟨?_, ?_, ?_⟩ <;> (rintro rfl; simp at hhigh)
  | short h =>
      have hall : Quoted.letters.all (fun p =>
          shortEscape? (Bytes.ofChar p.2) = some (Utf8.encode p.1) ∧
            Bytes.ofChar p.2 ≠ 120 ∧ Bytes.ofChar p.2 ≠ 117 ∧ Bytes.ofChar p.2 ≠ 85 ∧
              Bytes.ofChar p.2 ≠ 10) = true := by
        decide
      obtain ⟨hshort, hletter⟩ :=
        of_decide_eq_true (List.all_eq_true.mp hall _ (Quoted.mem_letters h))
      exact double?_short hletter hshort rest
  | byte h => exact double?_byte h rest
  | unit h => exact double?_unit h rest
  | point => exact double?_point c rest

theorem double?_flatMap (cs : List Char) (rest : Bytes) :
    double? .inside seen (cs.flatMap Quoted.encodeChar ++ 34 :: rest) =
      some (seen.reverse ++ Utf8.ofChars cs, rest) := by
  induction cs generalizing seen with
  | nil =>
      rw [List.flatMap_nil, List.nil_append, double?, Fold.settle]
      simp [Utf8.ofChars]
  | cons c cs ih =>
      rw [List.flatMap_cons, List.append_assoc, double?_stands (Quoted.stands_encodeChar c), ih]
      simp [Utf8.ofChars]

/-- A text that is UTF-8 is read back from its quotes. -/
theorem quoted?_encode {s : Bytes} (hs : Utf8.isValid s = true) (rest : Bytes) :
    quoted? (Quoted.encode s ++ rest) = some (s, rest) := by
  have hpieces : (Utf8.pieces s).flatMap Quoted.encodePiece =
      (Utf8.chars s).flatMap Quoted.encodeChar := by
    conv_lhs => rw [← Utf8.ofChars_chars hs, Utf8.pieces_ofChars, List.flatMap_map]
    rfl
  rw [Quoted.encode, hpieces, List.cons_append, List.append_assoc, quoted?, List.singleton_append,
    double?_flatMap, Utf8.ofChars_chars hs]
  rfl

end Quoted

section Plain

variable {text rest : Bytes}

/-- A scalar without quotes ends where its line or the key does. -/
theorem plainLine_token (htext : text.IsToken)
    (hrest : ∀ afterBlank, plainLine false afterBlank rest = ([], rest)) (afterBlank : Bool) :
    plainLine false afterBlank (text ++ rest) = (text, rest) := by
  induction text generalizing afterBlank with
  | nil => exact hrest afterBlank
  | cons c text ih =>
      have hc : ∀ d, Bytes.isTokenByte d = false → c ≠ d :=
        fun d => Bytes.ne_of_isTokenByte (htext c List.mem_cons_self)
      have hcolon : atColon false (c :: (text ++ rest)) = false := by
        unfold atColon
        split
        next heq => exact absurd (List.cons.inj heq).1 (hc 58 rfl)
        next heq => exact absurd (List.cons.inj heq).1 (hc 58 rfl)
        next => rfl
      rw [List.cons_append, plainLine, hcolon, if_neg (by simp [hc 10 rfl, hc 35 rfl]),
        ih fun d hd => htext d (List.mem_cons_of_mem c hd)]

theorem dropTrailingBlanks_token (htext : text.IsToken) : dropTrailingBlanks text = text := by
  have hkeep : text.reverse.dropWhile isBlank = text.reverse := by
    refine Bytes.dropWhile_append (a := []) (by simp) fun c hc => ?_
    have hmem : c ∈ text := List.mem_reverse.mp (List.mem_of_head? hc)
    have hne : ∀ d, Bytes.isTokenByte d = false → c ≠ d :=
      fun d => Bytes.ne_of_isTokenByte (htext c hmem)
    simp [isBlank, hne 32 rfl, hne 9 rfl]
  rw [dropTrailingBlanks, hkeep, List.reverse_reverse]

/-- No mark starts a scalar of letters, digits, signs and points; a dash may if it does not stand
alone. -/
theorem plainStart?_token (rest : Bytes) (htext : text.IsToken) (hne : text ≠ [])
    (hdash : text ≠ [45]) (hrest : ∀ afterBlank, plainLine false afterBlank rest = ([], rest)) :
    plainStart? false (text ++ rest) = some (text, rest) := by
  obtain ⟨c, cs, rfl⟩ := List.exists_cons_of_ne_nil hne
  have hc : ∀ d, Bytes.isTokenByte d = false → c ≠ d :=
    fun d => Bytes.ne_of_isTokenByte (htext c List.mem_cons_self)
  have hstart : startsPlain c = true := by
    refine decide_eq_true fun hmem => ?_
    have hall : ("\t,[]\x7b\x7d&*!|>@`%\"'#" : Bytes).any Bytes.isTokenByte = false := by
      decide
    exact List.any_eq_false.mp hall c hmem (htext c List.mem_cons_self)
  have hline := plainLine_token htext hrest false
  rw [List.cons_append] at hline ⊢
  unfold plainStart?
  simp only [hstart, hline, dropTrailingBlanks_token htext, Bool.not_true, Bool.false_or]
  refine if_neg ?_
  cases cs with
  | nil =>
      have hminus : c ≠ 45 := fun h => hdash (h ▸ rfl)
      simp [hminus, hc 63 rfl, hc 58 rfl]
  | cons d cs =>
      have hd : ∀ e, Bytes.isTokenByte e = false → d ≠ e :=
        fun e => Bytes.ne_of_isTokenByte (htext d (by simp))
      simp [hd 32 rfl, hd 9 rfl, hd 10 rfl]

end Plain

section Value

/-- The next line of the document, if it goes on, starts left of a column. -/
def LeftOf (column : Nat) (c : Cursor) : Prop := goesOn c = true → c.column < column

/-- How a value is read that stands at the end of a line, if the lines below do not belong to it. -/
structure ReadsValue (b : Bytes) (n : YamlNode) : Prop where
  head : ∃ c cs, b = c :: cs ∧ isBlank c = false ∧ c ≠ 10 ∧ c ≠ 35
  noReturn : 13 ∉ b
  reads : ∀ fuel column rest, LeftOf (column + 1) (nextLine rest) →
    inlineNode? (fuel + 1) (column : Nat) (b ++ 10 :: rest) = some (n, nextLine rest)

theorem ReadsValue.quoted {s : Bytes} (hs : Utf8.isValid s = true) :
    ReadsValue (Quoted.encode s) (.quoted s) := by
  refine ⟨⟨34, _, rfl, by decide⟩, fun h => absurd (Quoted.low_encode s h) (by decide), ?_⟩
  intro fuel column rest _
  have hread := quoted?_encode hs (10 :: rest)
  have hfinish : finishLine? (10 :: rest) = some (nextLine rest) := rfl
  rw [Quoted.encode, List.cons_append] at hread ⊢
  rw [inlineNode?, hread]
  simp [hfinish]

theorem ReadsValue.plain {text : Bytes} (htext : text.IsToken) (hne : text ≠ [])
    (hdash : text ≠ [45]) : ReadsValue text (.plain text) := by
  obtain ⟨c, cs, hcs⟩ := List.exists_cons_of_ne_nil hne
  have hc : ∀ d, Bytes.isTokenByte d = false → c ≠ d :=
    fun d => Bytes.ne_of_isTokenByte (htext c (hcs ▸ List.mem_cons_self))
  refine ⟨⟨c, cs, hcs, by simp [isBlank, hc 32 rfl, hc 9 rfl], hc 10 rfl, hc 35 rfl⟩,
    htext.not_mem rfl, ?_⟩
  intro fuel column rest hrest
  have hread := plainStart?_token (10 :: rest) htext hne hdash fun _ => by
    rw [plainLine]
    rfl
  have hmore : plainMore (fuel + 1) column (10 :: rest) = some ([], nextLine rest) := by
    have hstop : ¬ (goesOn (nextLine rest) = true ∧ (column : Int) < (nextLine rest).column) := by
      rintro ⟨hgoes, hlt⟩
      have := hrest hgoes
      omega
    rw [plainMore, show skipBlank (10 :: rest) = 10 :: rest from rfl]
    refine if_neg fun h => hstop ?_
    simp only [Bool.and_eq_true, decide_eq_true_eq] at h
    exact h.1
  rw [hcs, List.cons_append] at hread ⊢
  rw [inlineNode?, hread]
  simp [hc 91 rfl, hc 123 rfl, hc 34 rfl, hc 39 rfl, hmore, ← hcs, atColon]

theorem ReadsValue.numeral (n : Numeral) : ReadsValue n.text (.plain n.text) := by
  have hstart := YamlScalar.startsNumber_text n
  refine .plain n.isToken_text ?_ ?_ <;> (intro h; rw [h] at hstart; cases hstart)

end Value

section Float

variable {x : Binary64}

theorem writeFloat_of_isNaN (hx : x.isNaN = true) : writeFloat x = ".nan" := if_pos hx

theorem writeFloat_of_isInfinite (hx : x.isInfinite = true) :
    writeFloat x = if x.negative then Bytes.ofString "-.inf" else Bytes.ofString ".inf" := by
  rw [writeFloat, Binary64.isNaN_of_isInfinite hx, hx]
  rfl

/-- A finite number is written as a numeral that has a point or an exponent. -/
theorem exists_numeral_writeFloat (hx : x.isZero = false) (hfinite : x.isFinite = true) :
    ∃ n : Numeral, n.text = writeFloat x ∧ n.Spells x ∧ n.coefficient ≠ 0 ∧
      (n.places ≠ [] ∨ n.exponent ≠ none) := by
  obtain ⟨n, htext, hspells⟩ := Binary64.exists_numeral_general hx hfinite
  unfold writeFloat
  rw [Binary64.isNaN_of_isFinite hfinite, Binary64.isInfinite_of_isFinite hfinite,
    if_neg Bool.false_ne_true, if_neg Bool.false_ne_true, ← htext]
  dsimp only
  split
  next hany =>
    refine ⟨n, rfl, hspells, hspells.coefficient_ne_zero hx, ?_⟩
    obtain ⟨c, hc, hmark⟩ := List.any_eq_true.mp hany
    simp only [Bool.or_eq_true, decide_eq_true_eq] at hmark
    rcases hmark with rfl | rfl
    · exact .inl (n.point_mem_text.mp hc)
    · exact .inr (n.mark_mem_text.mp hc)
  next hany =>
    have hnone : ∀ c ∈ n.text, ¬ (c = 46 ∨ c = 101) := by simpa using hany
    have hplaces : n.places = [] := by
      by_contra h
      exact hnone 46 (n.point_mem_text.mpr h) (.inl rfl)
    have hexponent : n.exponent = none := by
      by_contra h
      exact hnone 101 (n.mark_mem_text.mpr h) (.inr rfl)
    obtain ⟨m, hm, -, hpoint, hspells'⟩ := n.exists_point hplaces hexponent
    exact ⟨m, hm, hspells' x hspells, (hspells' x hspells).coefficient_ne_zero hx, .inl hpoint⟩

/-- What is written of a number is it, or a text that is read as it. -/
theorem ofPlain_writeFloat (hx : x.isZero = false) :
    YamlScalar.ofPlain (writeFloat x) = .float x.canonical ∨
      YamlScalar.ofPlain (writeFloat x) = .text (writeFloat x) ∧
        Reading.float? (writeFloat x) = some x.canonical := by
  rcases x.isNaN_or_isInfinite_or_isFinite with hnan | hinfinite | hfinite
  · rw [Binary64.canonical_of_isNaN hnan, writeFloat_of_isNaN hnan]
    exact .inl rfl
  · rw [Binary64.canonical_infinity hinfinite, writeFloat_of_isInfinite hinfinite]
    cases x.negative <;> exact .inl rfl
  · obtain ⟨n, htext, hspells, hcoefficient, hmark⟩ := exists_numeral_writeFloat hx hfinite
    rw [← htext, Binary64.canonical_of_isFinite hx hfinite]
    refine (YamlScalar.ofPlain_float hcoefficient hspells hmark hx hfinite).imp_right ?_
    exact fun h => ⟨h, hspells.float? hx hfinite⟩

theorem ReadsValue.float (hx : x.isZero = false) :
    ReadsValue (writeFloat x) (.plain (writeFloat x)) := by
  rcases x.isNaN_or_isInfinite_or_isFinite with hnan | hinfinite | hfinite
  · rw [writeFloat_of_isNaN hnan]
    exact .plain (by decide) (by decide) (by decide)
  · rw [writeFloat_of_isInfinite hinfinite]
    cases x.negative with
    | true => exact .plain (by decide) (by decide) (by decide)
    | false => exact .plain (by decide) (by decide) (by decide)
  · obtain ⟨n, htext, -⟩ := exists_numeral_writeFloat hx hfinite
    rw [← htext]
    exact .numeral n

end Float

end Yaml

end Arbor
