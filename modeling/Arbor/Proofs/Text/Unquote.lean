import Arbor.Proofs.Number.Digits
import Arbor.Proofs.Text.Quoted

/-! No character that stands for itself begins like an escape or a closing quote. -/
namespace Arbor.Quoted

/-- What the escape or the character at the start of a text stands for, and the text after it. -/
def piece? : Bytes → Option (Utf8.Piece × Bytes)
  | 92 :: 120 :: y :: z :: rest => (Reading.digits? 16 [y, z]).map fun n =>
      (if n < 0x80 then .scalar (Char.ofNat n) else .stray n.toUInt8, rest)
  | 92 :: 117 :: w :: x :: y :: z :: rest => (Reading.digits? 16 [w, x, y, z]).map fun n =>
      (.scalar (Char.ofNat n), rest)
  | 92 :: 85 :: s :: t :: u :: v :: w :: x :: y :: z :: rest =>
      (Reading.digits? 16 [s, t, u, v, w, x, y, z]).map fun n => (.scalar (Char.ofNat n), rest)
  | 92 :: letter :: rest =>
      ((('"', '"') :: ('\\', '\\') :: letters).find? fun p => Bytes.ofChar p.2 = letter).map
        fun p => (.scalar p.1, rest)
  | 34 :: _ => none
  | a :: rest => (Utf8.scalar? a rest).map fun (c, n) => (.scalar c, rest.drop n)
  | [] => none

/-- Pieces as they are found in byte strings: a stray byte is no ASCII character. -/
def Genuine : Utf8.Piece → Prop
  | .scalar _ => True
  | .stray b => 0x80 ≤ b.toNat

theorem genuine_of_mem_piecesAfter {skip : Nat} {b : Bytes} :
    ∀ p ∈ Utf8.piecesAfter skip b, Genuine p := by
  fun_induction Utf8.piecesAfter skip b with
  | case1 => simp
  | case2 skip a rest ih => exact ih
  | case3 a rest c n hscalar ih => exact List.forall_mem_cons.mpr ⟨trivial, ih⟩
  | case4 a rest hnone ih =>
      refine List.forall_mem_cons.mpr ⟨?_, ih⟩
      by_contra hlow
      have hascii : a < 0x80 := UInt8.lt_iff_toNat_lt.mpr (by simpa [Genuine] using hlow)
      unfold Utf8.scalar? at hnone
      rw [if_pos hascii] at hnone
      cases hnone

section Pieces

variable {c : Char} (rest : Bytes)

theorem piece?_byte {n : Nat} (hn : n < 16 ^ 2) : piece? (escape 'x' 2 n ++ rest) =
    some (if n < 0x80 then .scalar (Char.ofNat n) else .stray n.toUInt8, rest) := by
  have hdigits := Reading.digits?_hexFixed 1 n
  rw [Nat.mod_eq_of_lt hn] at hdigits
  simp only [escape, Bytes.hexFixed, List.nil_append, List.cons_append] at hdigits ⊢
  rw [show Bytes.ofChar 'x' = 120 from rfl, piece?, hdigits]
  rfl

theorem piece?_unit {n : Nat} (hn : n < 16 ^ 4) :
    piece? (escape 'u' 4 n ++ rest) = some (.scalar (Char.ofNat n), rest) := by
  have hdigits := Reading.digits?_hexFixed 3 n
  rw [Nat.mod_eq_of_lt hn] at hdigits
  simp only [escape, Bytes.hexFixed, List.nil_append, List.cons_append] at hdigits ⊢
  rw [show Bytes.ofChar 'u' = 117 from rfl, piece?, hdigits]
  rfl

theorem piece?_point {n : Nat} (hn : n < 16 ^ 8) :
    piece? (escape 'U' 8 n ++ rest) = some (.scalar (Char.ofNat n), rest) := by
  have hdigits := Reading.digits?_hexFixed 7 n
  rw [Nat.mod_eq_of_lt hn] at hdigits
  simp only [escape, Bytes.hexFixed, List.nil_append, List.cons_append] at hdigits ⊢
  rw [show Bytes.ofChar 'U' = 85 from rfl, piece?, hdigits]
  rfl

theorem piece?_short {letter : Char} (h : (c, letter) ∈ ('"', '"') :: ('\\', '\\') :: letters) :
    piece? (92 :: Bytes.ofChar letter :: rest) = some (.scalar c, rest) := by
  simp only [letters, List.mem_cons, List.not_mem_nil, or_false, Prod.mk.injEq] at h
  rcases h with ⟨rfl, rfl⟩ | ⟨rfl, rfl⟩ | ⟨rfl, rfl⟩ | ⟨rfl, rfl⟩ | ⟨rfl, rfl⟩ | ⟨rfl, rfl⟩ |
    ⟨rfl, rfl⟩ | ⟨rfl, rfl⟩ | ⟨rfl, rfl⟩ <;> rfl

theorem piece?_plain (hquote : c ≠ '"') (hslash : c ≠ '\\') :
    piece? (Utf8.encode c ++ rest) = some (.scalar c, rest) := by
  obtain ⟨a, tail, hc⟩ := List.exists_cons_of_ne_nil (Utf8.encode_ne_nil c)
  -- no byte of another character is one of the two marks
  have hne : ∀ d : Char, d.toNat < 0x80 → c ≠ d → a ≠ UInt8.ofNat d.toNat := by
    rintro d hd hcd rfl
    have htoNat : (UInt8.ofNat d.toNat).toNat = d.toNat := by
      rw [UInt8.toNat_ofNat']
      omega
    rcases Utf8.mem_encode (c := c) (hc ▸ List.mem_cons_self) with hsame | hhigh
    · exact hcd (Char.toNat_inj.mp (hsame.symm.trans htoNat))
    · omega
  have hquote : a ≠ 34 := hne '"' (by decide) hquote
  have hslash : a ≠ 92 := hne '\\' (by decide) hslash
  rw [hc, List.cons_append, piece?, Utf8.scalar?_encode hc]
  · simp
  all_goals simp [hquote, hslash]

/-- Every piece is read back from what stands for it. -/
theorem piece?_encodePiece {p : Utf8.Piece} (hp : Genuine p) :
    piece? (encodePiece p ++ rest) = some (p, rest) := by
  cases p with
  | stray b =>
      rw [encodePiece, piece?_byte rest b.toNat_lt, if_neg (by simpa [Genuine] using hp)]
      simp
  | scalar c =>
      rw [encodePiece, encodeChar]
      have hnumber : Utf8.Piece.scalar (Char.ofNat c.toNat) = .scalar c := by
        rw [Char.ofNat_toNat]
      split
      next hmark =>
        rcases hmark with rfl | rfl <;> exact piece?_short rest (by decide)
      next hmark =>
        obtain ⟨hquote, hslash⟩ := not_or.mp hmark
        split
        next => exact piece?_plain rest hquote hslash
        next =>
          split
          next letter hletter =>
            exact piece?_short rest
              (List.mem_cons_of_mem _ (List.mem_cons_of_mem _ (mem_letters hletter)))
          next =>
            split
            next hlow =>
              rw [piece?_byte rest (by omega), if_pos (by omega), hnumber]
            next =>
              split
              next hunit => rw [piece?_unit rest hunit, hnumber]
              next =>
                have hvalid := Utf8.toNat_valid c
                rw [piece?_point rest (by omega), hnumber]

end Pieces

theorem flatMap_encodePiece_inj {ps qs : List Utf8.Piece} {r r' : Bytes}
    (hps : ∀ p ∈ ps, Genuine p) (hqs : ∀ q ∈ qs, Genuine q)
    (h : ps.flatMap encodePiece ++ 34 :: r = qs.flatMap encodePiece ++ 34 :: r') :
    ps = qs ∧ r = r' := by
  -- nothing begins with the quote that closes the text
  have hends : ∀ {q : Utf8.Piece} {more r : Bytes}, Genuine q →
      34 :: r ≠ encodePiece q ++ more := by
    intro q more r hq heq
    have hread := congrArg piece? heq
    rw [piece?_encodePiece more hq] at hread
    cases hread
  induction ps generalizing qs with
  | nil =>
      cases qs with
      | nil => exact ⟨rfl, (List.cons.inj h).2⟩
      | cons q qs =>
          rw [List.flatMap_cons, List.append_assoc] at h
          exact absurd h (hends (hqs q List.mem_cons_self))
  | cons p ps ih =>
      obtain ⟨hp, hps⟩ := List.forall_mem_cons.mp hps
      rw [List.flatMap_cons, List.append_assoc] at h
      cases qs with
      | nil => exact absurd h.symm (hends hp)
      | cons q qs =>
          obtain ⟨hq, htail⟩ := List.forall_mem_cons.mp hqs
          rw [List.flatMap_cons, List.append_assoc] at h
          have hread := congrArg piece? h
          rw [piece?_encodePiece _ hp, piece?_encodePiece _ hq] at hread
          obtain ⟨rfl, hrest⟩ := Prod.mk.inj (Option.some.inj hread)
          obtain ⟨rfl, hend⟩ := ih hps htail hrest
          exact ⟨rfl, hend⟩

/-- A quoted text in front of any others tells the bytes that were quoted. -/
theorem encode_append_inj {a b r r' : Bytes} (h : encode a ++ r = encode b ++ r') :
    a = b ∧ r = r' := by
  simp only [encode, List.cons_append, List.append_assoc, List.nil_append] at h
  obtain ⟨hpieces, hrest⟩ := flatMap_encodePiece_inj genuine_of_mem_piecesAfter
    genuine_of_mem_piecesAfter (List.cons.inj h).2
  refine ⟨?_, hrest⟩
  have hbytes := congrArg (List.flatMap Utf8.Piece.bytes) hpieces
  rw [Utf8.flatMap_bytes_piecesAfter, Utf8.flatMap_bytes_piecesAfter] at hbytes
  exact hbytes

theorem encode_inj {a b : Bytes} (h : encode a = encode b) : a = b :=
  (encode_append_inj (congrArg (· ++ []) h)).1

end Arbor.Quoted
