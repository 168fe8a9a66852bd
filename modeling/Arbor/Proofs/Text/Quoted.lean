import Arbor.Proofs.Text.Token
import Arbor.Text.Quoted

/-! Quoting any bytes gives UTF-8 without control characters. -/
namespace Arbor

namespace Utf8

variable {a b : Bytes}

theorem pieces_ofChars_append (cs : List Char) (rest : Bytes) :
    pieces (ofChars cs ++ rest) = cs.map .scalar ++ pieces rest := by
  induction cs with
  | nil => rfl
  | cons c cs ih =>
      have hcons : ofChars (c :: cs) = encode c ++ ofChars cs := List.flatMap_cons
      rw [hcons, List.append_assoc, pieces_encode_append, ih, List.map_cons, List.cons_append]

theorem isValid_ofChars (cs : List Char) : isValid (ofChars cs) = true := by
  simp [isValid, pieces_ofChars, Piece.isScalar]

theorem isValid_append (ha : isValid a = true) (hb : isValid b = true) :
    isValid (a ++ b) = true := by
  rw [← ofChars_chars ha, isValid, pieces_ofChars_append, List.all_append, Bool.and_eq_true]
  exact ⟨by simp [Piece.isScalar], hb⟩

theorem isValid_flatMap {α : Type} {f : α → Bytes} {l : List α}
    (hf : ∀ x ∈ l, isValid (f x) = true) : isValid (l.flatMap f) = true := by
  induction l with
  | nil => rfl
  | cons x l ih =>
      exact isValid_append (hf x List.mem_cons_self)
        (ih fun y hy => hf y (List.mem_cons_of_mem x hy))

/-- UTF-8 is the bytes of its text. -/
theorem ofString_toStringD (hb : isValid b = true) : Bytes.ofString b.toStringD = b := by
  have hbytes : (⟨b.toArray⟩ : ByteArray) = (chars b).utf8Encode := by
    refine ByteArray.ext ?_
    rw [List.utf8Encode, List.data_toByteArray]
    exact congrArg List.toArray (ofChars_chars hb).symm
  have hvalid : (⟨b.toArray⟩ : ByteArray).IsValidUTF8 := hbytes ▸ ByteArray.isValidUTF8_utf8Encode
  rw [Bytes.toStringD, Bytes.toString?, String.fromUTF8?, dif_pos hvalid]
  rfl

end Utf8

namespace Quoted

open Bytes

theorem isTokenByte_hexDigit {n : Nat} (hn : n < 16) : isTokenByte (hexDigit n) = true := by
  have hall : ∀ n < 16, isTokenByte (hexDigit n) = true := by decide
  exact hall n hn

theorem isToken_hexFixed (width n : Nat) : (hexFixed hexDigit width n).IsToken := by
  induction width generalizing n with
  | zero => exact .nil
  | succ width ih =>
      exact (ih _).append (.cons (isTokenByte_hexDigit (Nat.mod_lt _ (by decide))) .nil)

/-- What stands for a character between the quotes: a backslash and a letter or a number, or the
character itself. -/
inductive Stands (c : Char) : Bytes → Prop where
  | mark (h : c = '"' ∨ c = '\\') : Stands c [92, ofChar c]
  | printable (hquote : c ≠ '"') (hslash : c ≠ '\\') (h : isPrintable c = true) :
      Stands c (Utf8.encode c)
  | short {letter : Char} (h : shortEscape? c = some letter) : Stands c [92, ofChar letter]
  | byte (h : c.toNat < 0x100) : Stands c (escape 'x' 2 c.toNat)
  | unit (h : c.toNat < 0x10000) : Stands c (escape 'u' 4 c.toNat)
  | point : Stands c (escape 'U' 8 c.toNat)

theorem stands_encodeChar (c : Char) : Stands c (encodeChar c) := by
  unfold encodeChar
  split
  next h => exact .mark h
  next hmark =>
    obtain ⟨hquote, hslash⟩ := not_or.mp hmark
    split
    next h => exact .printable hquote hslash h
    next =>
      split
      next h => exact .short h
      next =>
        split
        next h => exact .byte (by omega)
        next =>
          split
          next h => exact .unit h
          next => exact .point

def letters : List (Char × Char) :=
  [('\x07', 'a'), ('\x08', 'b'), ('\t', 't'), ('\n', 'n'), ('\x0b', 'v'), ('\x0c', 'f'),
    ('\r', 'r')]

theorem mem_letters {c letter : Char} (h : shortEscape? c = some letter) :
    (c, letter) ∈ letters := by
  unfold shortEscape? at h
  split at h <;> cases h <;> rename_i heq <;> rw [← Utf8.eq_ofNat heq] <;> decide

section Bytes

variable {c : Char} {b : Bytes}

theorem isPrintable_low (h : isPrintable c = true) : 0x20 ≤ c.toNat := by
  unfold isPrintable at h
  dsimp only at h
  split at h
  · exact of_decide_eq_true h
  · omega

theorem mem_escape (letter : Char) (hletter : isTokenByte (ofChar letter) = true) {width n : Nat}
    {x : UInt8} (hx : x ∈ escape letter width n) : 0x20 ≤ x.toNat ∧ x.toNat < 0x80 := by
  have htoken : ∀ {x}, isTokenByte x = true → 0x20 ≤ x.toNat ∧ x.toNat < 0x80 := by
    intro x hx
    have := isTokenByte_toNat hx
    omega
  rcases List.mem_cons.mp hx with rfl | hx
  · decide
  · rcases List.mem_cons.mp hx with rfl | hx
    · exact htoken hletter
    · exact htoken (isToken_hexFixed width n x hx)

/-- What stands for a character is visible ASCII or the character itself. -/
theorem Stands.bytes (h : Stands c b) :
    (∀ x ∈ b, 0x20 ≤ x.toNat ∧ x.toNat < 0x80) ∨ b = Utf8.encode c ∧ isPrintable c = true := by
  have hlist : ∀ b : Bytes, b.all (fun x => 0x20 ≤ x.toNat ∧ x.toNat < 0x80) = true →
      ∀ x ∈ b, 0x20 ≤ x.toNat ∧ x.toNat < 0x80 :=
    fun b hall x hx => of_decide_eq_true (List.all_eq_true.mp hall x hx)
  cases h with
  | mark h => rcases h with rfl | rfl <;> exact .inl (hlist _ (by decide))
  | printable _ _ h => exact .inr ⟨rfl, h⟩
  | short h =>
      have hall : letters.all (fun p =>
          [92, ofChar p.2].all fun x => 0x20 ≤ x.toNat ∧ x.toNat < 0x80) = true := by
        decide
      exact .inl (hlist _ (List.all_eq_true.mp hall _ (mem_letters h)))
  | byte => exact .inl fun x => mem_escape 'x' (by decide)
  | unit => exact .inl fun x => mem_escape 'u' (by decide)
  | point => exact .inl fun x => mem_escape 'U' (by decide)

theorem Stands.isValid (h : Stands c b) : Utf8.isValid b = true := by
  rcases h.bytes with hascii | ⟨rfl, -⟩
  · exact Utf8.isValid_ascii fun x hx => UInt8.lt_iff_toNat_lt.mpr (hascii x hx).2
  · have hsingle : Utf8.encode c = Utf8.ofChars [c] := (List.append_nil _).symm
    rw [hsingle]
    exact Utf8.isValid_ofChars [c]

theorem Stands.low (h : Stands c b) {x : UInt8} (hx : x ∈ b) : 0x20 ≤ x.toNat := by
  rcases h.bytes with hascii | ⟨rfl, hprintable⟩
  · exact (hascii x hx).1
  · have hc := isPrintable_low hprintable
    rcases Utf8.mem_encode hx with hsame | hhigh <;> omega

theorem low_encodePiece (p : Utf8.Piece) {x : UInt8} (hx : x ∈ encodePiece p) :
    0x20 ≤ x.toNat := by
  cases p with
  | scalar c => exact (stands_encodeChar c).low hx
  | stray b => exact (mem_escape 'x' (by decide) hx).1

theorem low_encode (b : Bytes) {x : UInt8} (hx : x ∈ encode b) : 0x20 ≤ x.toNat := by
  rcases List.mem_cons.mp hx with rfl | hx
  · decide
  · rcases List.mem_append.mp hx with hx | hx
    · obtain ⟨p, -, hp⟩ := List.mem_flatMap.mp hx
      exact low_encodePiece p hp
    · rw [List.mem_singleton.mp hx]
      decide

theorem isValid_encode (b : Bytes) : Utf8.isValid (encode b) = true := by
  refine Utf8.isValid_append (a := [34]) rfl (Utf8.isValid_append (Utf8.isValid_flatMap ?_) rfl)
  intro p _
  cases p with
  | scalar c => exact (stands_encodeChar c).isValid
  | stray b =>
      exact Utf8.isValid_ascii fun x hx =>
        UInt8.lt_iff_toNat_lt.mpr (mem_escape 'x' (by decide) hx).2

end Bytes

end Quoted

/-- The text of a quoted byte string has the bytes that quoting gives. -/
theorem ofString_quoted (b : Bytes) : Bytes.ofString (quoted b) = Quoted.encode b :=
  Utf8.ofString_toStringD (Quoted.isValid_encode b)

end Arbor
