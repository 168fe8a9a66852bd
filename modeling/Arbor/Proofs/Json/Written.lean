import Arbor.Proofs.Json.Text

/-! The text of a string can be found later on from the bytes between its quotes. -/
namespace Arbor.JsonValue

section Strings

/-- The code unit of the escape that bytes start with. -/
def leadingUnit? (b : Bytes) : Option Nat :=
  match b.take 6 with
  | [92, 117, e, f, g, h] => unit? e f g h
  | _ => none

theorem exists_of_leadingUnit? {b : Bytes} {n : Nat} (h : leadingUnit? b = some n) :
    ∃ e f g h rest, b = 92 :: 117 :: e :: f :: g :: h :: rest := by
  unfold leadingUnit? at h
  split at h
  next e f g d heq =>
    refine ⟨e, f, g, d, b.drop 6, ?_⟩
    rw [← List.take_append_drop 6 b, heq]
    simp
  next => cases h

theorem leadingUnit?_eq_none {b : Bytes} (hquote : 34 ∈ b.take 6) : leadingUnit? b = none := by
  unfold leadingUnit?
  split
  next e f g h heq =>
    have hdigit : Bytes.hexValue? 34 = none := rfl
    have hmem : 34 = e ∨ 34 = f ∨ 34 = g ∨ 34 = h := by simpa [heq] using hquote
    rcases hmem with rfl | rfl | rfl | rfl <;> simp [unit?, hdigit]
  next => rfl

/-- No digit of an escape is a quote, so what follows a quote is of no account before it. -/
theorem leadingUnit?_append (w x y : Bytes) :
    leadingUnit? (w ++ 34 :: x) = leadingUnit? (w ++ 34 :: y) := by
  rcases Nat.lt_or_ge w.length 6 with hshort | hlong
  · have hquote : ∀ z : Bytes, 34 ∈ (w ++ 34 :: z).take 6 := by
      intro z
      rw [List.mem_take_iff_getElem]
      exact ⟨w.length, by simp; omega, by simp⟩
    rw [leadingUnit?_eq_none (hquote x), leadingUnit?_eq_none (hquote y)]
  · unfold leadingUnit?
    rw [List.take_append_of_le_length hlong, List.take_append_of_le_length hlong]

/-- An escaped code unit and the one after it are a pair of surrogates, or the first one stands
alone. -/
theorem stringBody_unit (a b c d : UInt8) (rest : Bytes) :
    stringBody (92 :: 117 :: a :: b :: c :: d :: rest) =
      (unit? a b c d).bind fun high =>
        match (leadingUnit? rest).bind (pair? high) with
        | some ch => (stringBody (rest.drop 6)).map
            (Lexeme.after (92 :: 117 :: a :: b :: c :: d :: rest.take 6) (Utf8.encode ch))
        | none => (stringBody rest).map
            (Lexeme.after [92, 117, a, b, c, d] (Utf8.encode (unitChar high))) := by
  rw [stringBody]
  simp only [Option.bind_eq_bind]
  refine Option.bind_congr fun high _ => ?_
  split
  next e f g h rest =>
    simp only [leadingUnit?]
    rfl
  next hnone =>
    have hunit : leadingUnit? rest = none := by
      unfold leadingUnit?
      split
      next e f g h heq =>
        refine absurd ?_ (hnone e f g h (rest.drop 6))
        rw [← List.take_append_drop 6 rest, heq]
        simp
      next => rfl
    rw [hunit]
    rfl

theorem stringBody_short {b c : UInt8} (hc : shortEscape? b = some c) (rest : Bytes) :
    stringBody (92 :: b :: rest) = (stringBody rest).map (Lexeme.after [92, b] [c]) := by
  have hu : b ≠ 117 := by
    rintro rfl
    cases hc
  rw [stringBody, hc]
  · rfl
  · intro a b' c' d rest' hb
    exact absurd hb hu

/-- A string that is read up to its closing quote, whatever follows the quote. -/
structure ReadUpTo (b rest : Bytes) (l : Lexeme) : Prop where
  eq : b = l.written ++ 34 :: rest
  read : ∀ more, stringBody (l.written ++ 34 :: more) = some (l, more)

theorem ReadUpTo.after {b rest : Bytes} {l : Lexeme} (h : ReadUpTo b rest l) (front text : Bytes)
    (hfront : ∀ more, stringBody (front ++ (l.written ++ 34 :: more)) =
      (stringBody (l.written ++ 34 :: more)).map (Lexeme.after front text)) :
    ReadUpTo (front ++ b) rest ⟨front ++ l.written, text ++ l.text⟩ := by
  refine ⟨?_, ?_⟩
  · rw [h.eq, List.append_assoc]
  · intro more
    rw [List.append_assoc, hfront, h.read]
    rfl

theorem readUpTo_of_stringBody {b rest : Bytes} {l : Lexeme}
    (hbody : stringBody b = some (l, rest)) : ReadUpTo b rest l := by
  induction b using stringBody.induct generalizing l rest with
  | case1 => cases hbody
  | case2 b =>
      cases hbody
      exact ⟨rfl, fun more => rfl⟩
  | case3 a b c d tail ih ihpair =>
      rw [stringBody_unit] at hbody
      obtain ⟨high, hhigh, hbody⟩ := Option.bind_eq_some_iff.mp hbody
      cases hpair : (leadingUnit? tail).bind (pair? high) with
      | none =>
          rw [hpair] at hbody
          obtain ⟨⟨l', rest'⟩, htail, heq⟩ := Option.map_eq_some_iff.mp hbody
          cases heq
          -- what follows the closing quote could only make a pair with an escape before it, and
          -- the escape would have to reach beyond the quote
          have hread := ih htail
          refine hread.after [92, 117, a, b, c, d] _ fun more => ?_
          have hsame : leadingUnit? (l'.written ++ 34 :: more) = leadingUnit? tail := by
            rw [hread.eq, leadingUnit?_append]
          simp only [List.cons_append, List.nil_append]
          rw [stringBody_unit, hhigh, Option.bind_some, hsame, hpair]
      | some ch =>
          rw [hpair] at hbody
          obtain ⟨⟨l', rest'⟩, htail, heq⟩ := Option.map_eq_some_iff.mp hbody
          cases heq
          obtain ⟨low, hlow, hch⟩ := Option.bind_eq_some_iff.mp hpair
          obtain ⟨e, f, g, h, tail, rfl⟩ := exists_of_leadingUnit? hlow
          refine (ihpair htail).after [92, 117, a, b, c, d, 92, 117, e, f, g, h] _ fun more => ?_
          have hsame : leadingUnit? (92 :: 117 :: e :: f :: g :: h ::
              (l'.written ++ 34 :: more)) = some low := hlow
          simp only [List.cons_append, List.nil_append]
          rw [stringBody_unit, hhigh, Option.bind_some, hsame, Option.bind_some, hch]
          rfl
  | case4 b tail hb ih =>
      rw [stringBody] at hbody
      · obtain ⟨c, hc, hbody⟩ := Option.bind_eq_some_iff.mp hbody
        obtain ⟨⟨l', rest'⟩, htail, heq⟩ := Option.map_eq_some_iff.mp hbody
        cases heq
        exact (ih htail).after [92, b] [c] fun more => stringBody_short hc _
      · exact hb
  | case5 b tail hquote hunit hescape hlow =>
      rw [stringBody, if_pos hlow] at hbody
      · cases hbody
      · exact hquote
      · exact hunit
      · exact hescape
  | case6 b tail hquote hunit hescape hlow ih =>
      rw [stringBody, if_neg hlow] at hbody
      · obtain ⟨⟨l', rest'⟩, htail, heq⟩ := Option.map_eq_some_iff.mp hbody
        cases heq
        -- a backslash alone would be followed by nothing, and nothing is no string
        have hslash : b ≠ 92 := by
          rintro rfl
          cases tail with
          | nil => cases htail
          | cons c more => exact hescape c more rfl rfl
        have hplain : IsPlain b :=
          ⟨Nat.not_lt.mp fun hlt => hlow (UInt8.lt_iff_toNat_lt.mpr hlt), hquote, hslash⟩
        exact (ih htail).after [b] [b] fun more => stringBody_plain hplain _
      · exact hquote
      · exact hunit
      · exact hescape

theorem textOf_written {b rest : Bytes} {l : Lexeme} (hbody : stringBody b = some (l, rest)) :
    textOf l.written = Keep.text l := by
  rw [textOf, (readUpTo_of_stringBody hbody).read []]

end Strings

section Parsing

theorem resolveAll_eq_map (vs : List JsonValue) : resolveAll vs = vs.map resolve := by
  induction vs with
  | nil => rfl
  | cons v vs ih => rw [resolveAll, ih, List.map_cons]

theorem resolveMembers_eq_map (ms : List Member) :
    resolveMembers ms = ms.map (Prod.map id resolve) := by
  induction ms with
  | nil => rfl
  | cons m ms ih =>
      rw [resolveMembers, ih, List.map_cons]
      rfl

theorem resolve_eq_string_iff {v : JsonValue} {text : Bytes} :
    v.resolve = string text ↔ ∃ written, v = string written ∧ textOf written = text := by
  cases v <;> simp [resolve]

theorem resolve_eq_array_iff {v : JsonValue} {vs : List JsonValue} :
    v.resolve = array vs ↔ ∃ ws, v = array ws ∧ ws.map resolve = vs := by
  cases v <;> simp [resolve, resolveAll_eq_map]

theorem resolve_eq_object_iff {v : JsonValue} {ms : List Member} :
    v.resolve = object ms ↔ ∃ ns, v = object ns ∧ ns.map (Prod.map id resolve) = ms := by
  cases v <;> simp [resolve, resolveMembers_eq_map]

theorem word?_map_resolve {w : Bytes} {v : JsonValue} (hv : v.resolve = v) (b : Bytes) :
    (word? w v b).map (Prod.map resolve id) = word? w v b := by
  unfold word?
  split
  · simp [hv]
  · rfl

mutual

/-- Whatever is read, is read with the texts of its strings or with what is written of them, and
the rest of the bytes is the same. -/
theorem parseValue_text (fuel level : Nat) (b : Bytes) :
    parseValue .text fuel level b =
      (parseValue .written fuel level b).map (Prod.map resolve id) := by
  cases fuel with
  | zero => rfl
  | succ fuel =>
      rw [parseValue, parseValue]
      split
      next => rfl
      next rest _ =>
        cases hbody : stringBody rest with
        | none => rfl
        | some read =>
            simp only [Option.map_some, Prod.map, resolve, Keep.written, textOf_written hbody,
              id_eq]
      next rest _ =>
        split
        next => rfl
        next =>
          split
          next => rfl
          next =>
            rw [parseItems_text fuel (level + 1), Option.map_map, Option.map_map]
            rfl
      next rest _ =>
        split
        next => rfl
        next =>
          split
          next => rfl
          next =>
            rw [parseMembers_text fuel (level + 1), Option.map_map, Option.map_map]
            rfl
      next => exact (word?_map_resolve rfl _).symm
      next => exact (word?_map_resolve rfl _).symm
      next => exact (word?_map_resolve rfl _).symm
      next =>
        rw [Option.map_map]
        rfl

theorem parseItems_text (fuel level : Nat) (b : Bytes) :
    parseItems .text fuel level b =
      (parseItems .written fuel level b).map (Prod.map resolveAll id) := by
  cases fuel with
  | zero => rfl
  | succ fuel =>
      simp only [parseItems, parseValue_text fuel level b, Option.bind_eq_bind]
      cases parseValue .written fuel level b with
      | none => rfl
      | some read =>
          simp only [Option.map_some, Option.bind_some, Prod.map, id_eq]
          split
          next rest _ =>
            rw [parseItems_text fuel level rest]
            cases parseItems .written fuel level rest <;> rfl
          next => rfl
          next => rfl

theorem parseMembers_text (fuel level : Nat) (b : Bytes) :
    parseMembers .text fuel level b =
      (parseMembers .written fuel level b).map (Prod.map resolveMembers id) := by
  cases fuel with
  | zero => rfl
  | succ fuel =>
      simp only [parseMembers, Option.bind_eq_bind]
      split
      next rest _ =>
        cases stringBody rest with
        | none => rfl
        | some key =>
            simp only [Option.bind_some]
            split
            next rest' _ =>
              rw [parseValue_text fuel level rest']
              cases parseValue .written fuel level rest' with
              | none => rfl
              | some read =>
                  simp only [Option.map_some, Option.bind_some, Prod.map, id_eq]
                  split
                  next rest'' _ =>
                    rw [parseMembers_text fuel level rest'']
                    cases parseMembers .written fuel level rest'' <;> rfl
                  next => rfl
                  next => rfl
            next => rfl
      next => rfl

end

/-- What is read with its texts is what is read as it is written and resolved. -/
theorem parse?_eq (b : Bytes) : parse? b = (parseWith? .written b).map resolve := by
  rw [parse?, parseWith?, parseWith?, parseValue_text]
  cases parseValue .written (2 * b.length + 2) 0 b with
  | none => rfl
  | some read =>
      obtain ⟨v, rest⟩ := read
      simp only [Option.map_some, Prod.map_apply, id_eq]
      split <;> rfl

end Parsing

end Arbor.JsonValue
