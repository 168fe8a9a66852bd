import Arbor.Text.Utf8

/-! The bytes of a character are read as it, whatever follows, and no other bytes are. -/
namespace Arbor.Utf8

theorem toNat_ofNat_of_valid {n : Nat} (h : n < 0xD800 ∨ (0xDFFF < n ∧ n < 0x110000)) :
    (Char.ofNat n).toNat = n := by
  rw [Char.ofNat, dif_pos h]
  rfl

theorem toNat_valid (c : Char) : c.toNat < 0xD800 ∨ (0xDFFF < c.toNat ∧ c.toNat < 0x110000) :=
  c.valid

theorem eq_ofNat {c : Char} {n : Nat} (h : c.toNat = n) : Char.ofNat n = c := by
  rw [← h, Char.ofNat_toNat]

theorem encode_cases (c : Char) :
    (c.toNat < 0x80 ∧ encode c = [UInt8.ofNat c.toNat]) ∨
    (0x80 ≤ c.toNat ∧ c.toNat < 0x800 ∧
      encode c = [UInt8.ofNat (c.toNat / 64 % 32 + 192), UInt8.ofNat (c.toNat % 64 + 128)]) ∨
    (0x800 ≤ c.toNat ∧ c.toNat < 0x10000 ∧
      encode c = [UInt8.ofNat (c.toNat / 4096 % 16 + 224), UInt8.ofNat (c.toNat / 64 % 64 + 128),
        UInt8.ofNat (c.toNat % 64 + 128)]) ∨
    (0x10000 ≤ c.toNat ∧
      encode c = [UInt8.ofNat (c.toNat / 262144 % 8 + 240), UInt8.ofNat (c.toNat / 4096 % 64 + 128),
        UInt8.ofNat (c.toNat / 64 % 64 + 128), UInt8.ofNat (c.toNat % 64 + 128)]) := by
  have hval : c.val.toNat = c.toNat := rfl
  rw [encode, String.utf8EncodeChar, hval]
  split
  · exact .inl ⟨by omega, rfl⟩
  split
  · exact .inr (.inl ⟨by omega, by omega, rfl⟩)
  split
  · exact .inr (.inr (.inl ⟨by omega, by omega, rfl⟩))
  · exact .inr (.inr (.inr ⟨by omega, rfl⟩))

theorem two?_eq_some_iff {a b : UInt8} {c : Char} : two? a b = some c ↔ encode c = [a, b] := by
  have ha := a.toNat_lt
  have hb := b.toNat_lt
  simp only [two?, isTail, Bool.and_eq_true, decide_eq_true_eq, UInt8.le_iff_toNat_le,
    UInt8.reduceToNat, Option.ite_none_right_eq_some, Option.some.injEq]
  constructor
  · rintro ⟨h, rfl⟩
    have hnat := toNat_ofNat_of_valid (n := (a.toNat - 192) * 64 + (b.toNat - 128)) (by omega)
    rcases encode_cases (Char.ofNat ((a.toNat - 192) * 64 + (b.toNat - 128))) with
      hc | hc | hc | hc <;> rw [hnat] at hc
    · omega
    · simp only [hc.2.2, List.cons.injEq, and_true, UInt8.ofNat_eq_iff_mod_eq_toNat]
      omega
    · omega
    · omega
  · intro h
    rcases encode_cases c with hc | hc | hc | hc
    · simp [hc.2] at h
    · simp only [hc.2.2, List.cons.injEq, and_true, UInt8.ofNat_eq_iff_mod_eq_toNat] at h
      exact ⟨by omega, eq_ofNat (by omega)⟩
    · simp [hc.2.2] at h
    · simp [hc.2] at h

theorem three?_eq_some_iff {a b c : UInt8} {x : Char} :
    three? a b c = some x ↔ encode x = [a, b, c] := by
  have ha := a.toNat_lt
  have hb := b.toNat_lt
  have hc := c.toNat_lt
  simp only [three?, isTail, Bool.and_eq_true, Bool.or_eq_true, bne_iff_ne, ne_eq,
    ← UInt8.toNat_inj, decide_eq_true_eq, UInt8.le_iff_toNat_le, UInt8.reduceToNat,
    Option.ite_none_right_eq_some, Option.some.injEq]
  constructor
  · rintro ⟨h, rfl⟩
    have hnat := toNat_ofNat_of_valid
      (n := (a.toNat - 224) * 4096 + (b.toNat - 128) * 64 + (c.toNat - 128)) (by omega)
    rcases encode_cases (Char.ofNat
      ((a.toNat - 224) * 4096 + (b.toNat - 128) * 64 + (c.toNat - 128))) with
      hx | hx | hx | hx <;> rw [hnat] at hx
    · omega
    · omega
    · simp only [hx.2.2, List.cons.injEq, and_true, UInt8.ofNat_eq_iff_mod_eq_toNat]
      omega
    · omega
  · intro h
    have hvalid := toNat_valid x
    rcases encode_cases x with hx | hx | hx | hx
    · simp [hx.2] at h
    · simp [hx.2.2] at h
    · simp only [hx.2.2, List.cons.injEq, and_true, UInt8.ofNat_eq_iff_mod_eq_toNat] at h
      exact ⟨by omega, eq_ofNat (by omega)⟩
    · simp [hx.2] at h

theorem four?_eq_some_iff {a b c d : UInt8} {x : Char} :
    four? a b c d = some x ↔ encode x = [a, b, c, d] := by
  have ha := a.toNat_lt
  have hb := b.toNat_lt
  have hc := c.toNat_lt
  have hd := d.toNat_lt
  simp only [four?, isTail, Bool.and_eq_true, Bool.or_eq_true, bne_iff_ne, ne_eq,
    ← UInt8.toNat_inj, decide_eq_true_eq, UInt8.le_iff_toNat_le, UInt8.reduceToNat,
    Option.ite_none_right_eq_some, Option.some.injEq]
  constructor
  · rintro ⟨h, rfl⟩
    have hnat := toNat_ofNat_of_valid (n := (a.toNat - 240) * 262144 + (b.toNat - 128) * 4096 +
      (c.toNat - 128) * 64 + (d.toNat - 128)) (by omega)
    rcases encode_cases (Char.ofNat ((a.toNat - 240) * 262144 + (b.toNat - 128) * 4096 +
      (c.toNat - 128) * 64 + (d.toNat - 128))) with hx | hx | hx | hx <;> rw [hnat] at hx
    · omega
    · omega
    · omega
    · simp only [hx.2, List.cons.injEq, and_true, UInt8.ofNat_eq_iff_mod_eq_toNat]
      omega
  · intro h
    have hvalid := toNat_valid x
    rcases encode_cases x with hx | hx | hx | hx
    · simp [hx.2] at h
    · simp [hx.2.2] at h
    · simp [hx.2.2] at h
    · simp only [hx.2, List.cons.injEq, and_true, UInt8.ofNat_eq_iff_mod_eq_toNat] at h
      exact ⟨by omega, eq_ofNat (by omega)⟩

/-- What is read as a character are its bytes. -/
theorem encode_of_scalar? {a : UInt8} {rest : Bytes} {c : Char} {n : Nat}
    (h : scalar? a rest = some (c, n)) :
    ∃ tail more, rest = tail ++ more ∧ tail.length = n ∧ encode c = a :: tail := by
  unfold scalar? at h
  split at h
  next ha =>
    cases h
    have ha : a.toNat < 128 := UInt8.lt_iff_toNat_lt.mp ha
    have hnat := toNat_ofNat_of_valid (n := a.toNat) (by omega)
    refine ⟨[], rest, rfl, rfl, ?_⟩
    rcases encode_cases (Char.ofNat a.toNat) with hc | hc | hc | hc <;> rw [hnat] at hc
    · rw [hc.2, UInt8.ofNat_toNat]
    · omega
    · omega
    · omega
  · split at h
    · cases h
    next b =>
      obtain ⟨x, hx, heq⟩ := Option.map_eq_some_iff.mp h
      cases heq
      exact ⟨[b], [], rfl, rfl, two?_eq_some_iff.mp hx⟩
    next b d =>
      simp only [Option.orElse_eq_orElse, Option.orElse_eq_or, Option.or_eq_some_iff,
        Option.map_eq_some_iff] at h
      rcases h with ⟨x, hx, heq⟩ | ⟨-, x, hx, heq⟩ <;> cases heq
      · exact ⟨[b], [d], rfl, rfl, two?_eq_some_iff.mp hx⟩
      · exact ⟨[b, d], [], rfl, rfl, three?_eq_some_iff.mp hx⟩
    next b d e more =>
      simp only [Option.orElse_eq_orElse, Option.orElse_eq_or, Option.or_eq_some_iff,
        Option.map_eq_some_iff] at h
      rcases h with ⟨x, hx, heq⟩ | ⟨-, ⟨x, hx, heq⟩ | ⟨-, x, hx, heq⟩⟩ <;> cases heq
      · exact ⟨[b], d :: e :: more, rfl, rfl, two?_eq_some_iff.mp hx⟩
      · exact ⟨[b, d], e :: more, rfl, rfl, three?_eq_some_iff.mp hx⟩
      · exact ⟨[b, d, e], more, rfl, rfl, four?_eq_some_iff.mp hx⟩

theorem two?_eq_none {a : UInt8} (ha : 0xE0 ≤ a.toNat) (b : UInt8) : two? a b = none := by
  rw [two?, if_neg]
  simp only [Bool.and_eq_true, decide_eq_true_eq, UInt8.le_iff_toNat_le, UInt8.reduceToNat]
  omega

theorem three?_eq_none {a : UInt8} (ha : 0xF0 ≤ a.toNat) (b c : UInt8) : three? a b c = none := by
  rw [three?, if_neg]
  simp only [Bool.and_eq_true, decide_eq_true_eq, UInt8.le_iff_toNat_le, UInt8.reduceToNat]
  omega

/-- The bytes of a character are read as the character, whatever follows. -/
theorem scalar?_encode {a : UInt8} {tail : Bytes} {c : Char} (h : encode c = a :: tail)
    (rest : Bytes) : scalar? a (tail ++ rest) = some (c, tail.length) := by
  have hnot : 0x80 ≤ a.toNat → ¬ a < 0x80 := by
    intro ha hlt
    exact absurd (UInt8.lt_iff_toNat_lt.mp hlt) (Nat.not_lt.mpr ha)
  rcases encode_cases c with ⟨hc, hbytes⟩ | ⟨hc, hc', hbytes⟩ | ⟨hc, hc', hbytes⟩ | ⟨hc, hbytes⟩
  · cases h.symm.trans hbytes
    have hnat : (UInt8.ofNat c.toNat).toNat = c.toNat := by
      rw [UInt8.toNat_ofNat']
      omega
    rw [scalar?.eq_def, if_pos (by rw [UInt8.lt_iff_toNat_lt, hnat]; exact hc), hnat, Char.ofNat_toNat]
    rfl
  · cases h.symm.trans hbytes
    have htwo := two?_eq_some_iff.mpr hbytes
    rw [scalar?.eq_def, if_neg (hnot (by rw [UInt8.toNat_ofNat']; omega))]
    rcases rest with _ | ⟨x, _ | ⟨y, more⟩⟩ <;>
      simp only [List.cons_append, List.nil_append, htwo, Option.map_some] <;> rfl
  · cases h.symm.trans hbytes
    have hfirst : 0xE0 ≤ (UInt8.ofNat (c.toNat / 4096 % 16 + 224)).toNat := by
      rw [UInt8.toNat_ofNat']
      omega
    have hthree := three?_eq_some_iff.mpr hbytes
    rw [scalar?.eq_def, if_neg (hnot (by omega))]
    rcases rest with _ | ⟨x, more⟩ <;>
      simp only [List.cons_append, List.nil_append, two?_eq_none hfirst, hthree,
        Option.map_some, Option.map_none] <;> rfl
  · cases h.symm.trans hbytes
    have hfirst : 0xF0 ≤ (UInt8.ofNat (c.toNat / 262144 % 8 + 240)).toNat := by
      rw [UInt8.toNat_ofNat']
      omega
    have hfour := four?_eq_some_iff.mpr hbytes
    rw [scalar?.eq_def, if_neg (hnot (by omega))]
    simp only [List.cons_append, List.nil_append, two?_eq_none (Nat.le_trans (by decide) hfirst),
      three?_eq_none hfirst, hfour, Option.map_some, Option.map_none]
    rfl

theorem encode_ne_nil (c : Char) : encode c ≠ [] := by
  rcases encode_cases c with hc | hc | hc | hc
  · simp [hc.2]
  · simp [hc.2.2]
  · simp [hc.2.2]
  · simp [hc.2]

/-- A byte of a character is the character itself or no ASCII. -/
theorem mem_encode {c : Char} {x : UInt8} (hx : x ∈ encode c) :
    x.toNat = c.toNat ∨ 0x80 ≤ x.toNat := by
  have hhigh : ∀ n, 0x80 ≤ n → n < 0x100 → 0x80 ≤ (UInt8.ofNat n).toNat := by
    intro n hn hn'
    rwa [UInt8.toNat_ofNat_of_lt' hn']
  rcases encode_cases c with ⟨hc, h⟩ | ⟨hc, hc', h⟩ | ⟨hc, hc', h⟩ | ⟨hc, h⟩ <;>
    simp only [h, List.mem_cons, List.not_mem_nil, or_false] at hx
  · rw [hx]
    exact .inl (UInt8.toNat_ofNat_of_lt' (Nat.lt_trans hc (by decide)))
  · rcases hx with rfl | rfl <;> exact .inr (hhigh _ (by omega) (by omega))
  · rcases hx with rfl | rfl | rfl <;> exact .inr (hhigh _ (by omega) (by omega))
  · rcases hx with rfl | rfl | rfl | rfl <;> exact .inr (hhigh _ (by omega) (by omega))

theorem high_of_mem_tail {c : Char} {a x : UInt8} {tail : Bytes} (hc : encode c = a :: tail)
    (hx : x ∈ tail) : 0x80 ≤ x.toNat := by
  by_cases hascii : c.toNat < 0x80
  · rcases encode_cases c with ⟨-, h⟩ | ⟨h, -⟩ | ⟨h, -⟩ | ⟨h, -⟩
    · obtain rfl : tail = [] := (List.cons.inj (hc.symm.trans h)).2
      cases hx
    all_goals omega
  · have hmem : x ∈ encode c := hc ▸ List.mem_cons_of_mem a hx
    rcases mem_encode hmem with h | h <;> omega

theorem piecesAfter_append (skipped rest : Bytes) :
    piecesAfter skipped.length (skipped ++ rest) = pieces rest := by
  induction skipped with
  | nil => rfl
  | cons b skipped ih => exact ih

theorem pieces_encode_append (c : Char) (rest : Bytes) :
    pieces (encode c ++ rest) = .scalar c :: pieces rest := by
  obtain ⟨a, tail, hc⟩ := List.exists_cons_of_ne_nil (encode_ne_nil c)
  rw [hc, List.cons_append, pieces, piecesAfter, scalar?_encode hc]
  simp only [piecesAfter_append]

theorem pieces_stray {a : UInt8} {rest : Bytes} (h : scalar? a rest = none) :
    pieces (a :: rest) = .stray a :: pieces rest := by
  rw [pieces, piecesAfter, h]
  rfl

/-- A byte string is empty or begins with a character or with a byte that starts none. -/
theorem bytes_induction {P : Bytes → Prop} (nil : P [])
    (scalar : ∀ c rest, P rest → P (encode c ++ rest))
    (stray : ∀ a rest, scalar? a rest = none → P rest → P (a :: rest)) (b : Bytes) : P b := by
  induction hn : b.length using Nat.strongRecOn generalizing b with
  | ind n ih =>
      cases b with
      | nil => exact nil
      | cons a rest =>
          have hrest := ih rest.length (by rw [← hn, List.length_cons]; omega) rest rfl
          cases hscalar : scalar? a rest with
          | none => exact stray a rest hscalar hrest
          | some r =>
              obtain ⟨tail, more, rfl, -, hc⟩ := encode_of_scalar? hscalar
              rw [← List.cons_append, ← hc]
              refine scalar r.1 more (ih more.length ?_ more rfl)
              rw [← hn, List.length_cons, List.length_append]
              omega

theorem pieces_ofChars (cs : List Char) : pieces (ofChars cs) = cs.map .scalar := by
  induction cs with
  | nil => rfl
  | cons c cs ih => rw [ofChars, List.flatMap_cons, pieces_encode_append, ← ofChars, ih, List.map_cons]

theorem chars_ofChars (cs : List Char) : chars (ofChars cs) = cs := by
  simp [chars, pieces_ofChars, Piece.char, Function.comp_def]

theorem mend_ofChars (cs : List Char) : mend (ofChars cs) = ofChars cs := by
  rw [mend, chars_ofChars]

/-- Nothing is lost: the pieces hold all bytes from the place where they start. -/
theorem flatMap_bytes_piecesAfter (skip : Nat) (b : Bytes) :
    (piecesAfter skip b).flatMap Piece.bytes = b.drop skip := by
  fun_induction piecesAfter skip b with
  | case1 => simp
  | case2 skip a rest ih => rw [ih, List.drop_succ_cons]
  | case3 a rest c n hscalar ih =>
      obtain ⟨tail, more, rfl, rfl, hc⟩ := encode_of_scalar? hscalar
      rw [List.flatMap_cons, ih, List.drop_left, Piece.bytes, hc]
      rfl
  | case4 a rest hscalar ih =>
      rw [List.flatMap_cons, ih]
      rfl

theorem ofChars_chars {b : Bytes} (h : isValid b = true) : ofChars (chars b) = b := by
  have hpieces : ofChars (chars b) = (pieces b).flatMap Piece.bytes := by
    rw [ofChars, chars, List.flatMap_map, List.flatMap_def, List.flatMap_def]
    refine congrArg List.flatten (List.map_congr_left ?_)
    intro p hp
    have hscalar := List.all_eq_true.mp h p hp
    cases p with
    | scalar c => rfl
    | stray a => cases hscalar
  rw [hpieces, pieces, flatMap_bytes_piecesAfter, List.drop_zero]

end Arbor.Utf8
