import Arbor.Json.Parser
import Arbor.Json.Printer
import Arbor.Proofs.Number.Digits
import Arbor.Proofs.Text.Utf8

/-! A character is read back from its escape, whatever follows. -/
namespace Arbor.JsonValue

section Plain

def IsPlain (b : UInt8) : Prop := 0x20 ≤ b.toNat ∧ b ≠ 34 ∧ b ≠ 92

theorem stringBody_plain {b : UInt8} (hb : IsPlain b) (rest : Bytes) :
    stringBody (b :: rest) = (stringBody rest).map (Lexeme.after [b] [b]) := by
  obtain ⟨hlow, hquote, hslash⟩ := hb
  rw [stringBody]
  · refine if_neg fun hlt => ?_
    exact absurd (UInt8.lt_iff_toNat_lt.mp hlt) (Nat.not_lt.mpr hlow)
  · exact hquote
  · intro a b c d rest' hb
    exact absurd hb hslash
  · intro c rest' hb
    exact absurd hb hslash

theorem stringBody_plains {bs : Bytes} (hbs : ∀ b ∈ bs, IsPlain b) (rest : Bytes) :
    stringBody (bs ++ rest) = (stringBody rest).map (Lexeme.after bs bs) := by
  induction bs with
  | nil => exact Option.map_id'.symm
  | cons b bs ih =>
      rw [List.cons_append, stringBody_plain (hbs b List.mem_cons_self),
        ih fun x hx => hbs x (List.mem_cons_of_mem b hx), Option.map_map]
      rfl

theorem isPlain_encode {c : Char} (hlow : 0x20 ≤ c.toNat) (hquote : c ≠ '"') (hslash : c ≠ '\\')
    {b : UInt8} (hb : b ∈ Utf8.encode c) : IsPlain b := by
  rcases Utf8.mem_encode hb with hsame | hhigh
  · refine ⟨hsame ▸ hlow, ?_, ?_⟩
    · rintro rfl
      exact hquote (Char.toNat_inj.mp hsame.symm)
    · rintro rfl
      exact hslash (Char.toNat_inj.mp hsame.symm)
  · refine ⟨by omega, ?_, ?_⟩ <;> (rintro rfl; simp at hhigh)

end Plain

section Escapes

/-- An escaped code unit that is no surrogate is its character, with no regard to a second one. -/
theorem stringBody_escapeUnit {n : Nat} (h : n < 0xD800) (rest : Bytes) :
    stringBody (escapeUnit n ++ rest) =
      (stringBody rest).map (Lexeme.after (escapeUnit n) (Utf8.encode (Char.ofNat n))) := by
  have hunit : unit? (Bytes.hexDigit (n / 16 / 16 / 16 % 16)) (Bytes.hexDigit (n / 16 / 16 % 16))
      (Bytes.hexDigit (n / 16 % 16)) (Bytes.hexDigit (n % 16)) = some n := by
    rw [unit?, Reading.hexValue?_hexDigit (Nat.mod_lt _ (by decide)),
      Reading.hexValue?_hexDigit (Nat.mod_lt _ (by decide)),
      Reading.hexValue?_hexDigit (Nat.mod_lt _ (by decide)),
      Reading.hexValue?_hexDigit (Nat.mod_lt _ (by decide))]
    refine congrArg some ?_
    omega
  have hpair : ∀ low, pair? n low = none := by
    intro low
    exact if_neg (by omega)
  have hnone : ∀ o : Option Nat, o.bind (pair? n) = none := by
    intro o
    cases o with
    | none => rfl
    | some low => exact hpair low
  have hchar : unitChar n = Char.ofNat n := if_neg (by omega)
  simp only [escapeUnit, Bytes.hexFixed, List.nil_append, List.cons_append, stringBody, hunit,
    Option.bind_eq_bind, Option.bind_some, hchar]
  split
  · rw [hnone]
  · rfl

theorem stringBody_escapeChar (c : Char) (rest : Bytes) :
    stringBody (escapeChar c ++ rest) =
      (stringBody rest).map (Lexeme.after (escapeChar c) (Utf8.encode c)) := by
  unfold escapeChar
  split
  · rfl
  · rfl
  · rfl
  · rfl
  · rfl
  · rfl
  · rfl
  · exact stringBody_escapeUnit (by decide) rest
  · exact stringBody_escapeUnit (by decide) rest
  · exact stringBody_escapeUnit (by decide) rest
  · exact stringBody_escapeUnit (by decide) rest
  · exact stringBody_escapeUnit (by decide) rest
  next hquote hslash _ _ _ _ _ _ _ _ _ _ =>
    split
    next hlow =>
      rw [stringBody_escapeUnit (by omega), Char.ofNat_toNat]
    next hlow =>
      exact stringBody_plains (fun b => isPlain_encode (by omega) hquote hslash) rest

end Escapes

theorem stringBody_escaped (cs : List Char) (rest : Bytes) :
    stringBody (cs.flatMap escapeChar ++ 34 :: rest) =
      some (⟨cs.flatMap escapeChar, Utf8.ofChars cs⟩, rest) := by
  induction cs with
  | nil => rfl
  | cons c cs ih =>
      rw [List.flatMap_cons, List.append_assoc, stringBody_escapeChar, ih]
      rfl

/-- A quoted string is read back, up to its closing quote. -/
theorem stringBody_quote {b : Bytes} (hb : Utf8.isValid b = true) (rest : Bytes) :
    ∃ l, quote b ++ rest = 34 :: ((Utf8.chars b).flatMap escapeChar ++ 34 :: rest) ∧
      stringBody ((Utf8.chars b).flatMap escapeChar ++ 34 :: rest) = some (l, rest) ∧
      Keep.text l = b := by
  refine ⟨_, ?_, stringBody_escaped _ rest, ?_⟩
  · rw [quote, List.cons_append, List.append_assoc]
    rfl
  · rw [Keep.text, Utf8.mend_ofChars, Utf8.ofChars_chars hb]

end Arbor.JsonValue
