import Arbor.Wire.Varint

/-! The written forms of numbers and byte strings end by themselves. -/
namespace Arbor.Wire

theorem toNat_toUInt8 {n : Nat} (h : n < 256) : n.toUInt8.toNat = n := by
  simp only [Nat.toUInt8, UInt8.toNat_ofNat']
  omega

theorem toUInt8_inj {m n : Nat} (hm : m < 256) (hn : n < 256) (h : m.toUInt8 = n.toUInt8) :
    m = n := by
  rw [← toNat_toUInt8 hm, h, toNat_toUInt8 hn]

section FixedWidth

@[simp] theorem littleEndian_length (width n : Nat) : (littleEndian width n).length = width := by
  induction width generalizing n with
  | zero => rfl
  | succ width ih => simp [littleEndian, ih]

theorem ofLittleEndian_littleEndian {width n : Nat} (h : n < 256 ^ width) :
    ofLittleEndian (littleEndian width n) = n := by
  induction width generalizing n with
  | zero =>
      have : n = 0 := by simpa using h
      simp [littleEndian, ofLittleEndian, this]
  | succ width ih =>
      have hdiv : n / 256 < 256 ^ width := by
        rw [Nat.div_lt_iff_lt_mul (by decide), ← Nat.pow_succ]
        exact h
      rw [littleEndian, ofLittleEndian, ih hdiv, toNat_toUInt8 (Nat.mod_lt _ (by decide))]
      omega

theorem littleEndian_inj {width m n : Nat} (hm : m < 256 ^ width) (hn : n < 256 ^ width)
    (h : littleEndian width m = littleEndian width n) : m = n := by
  rw [← ofLittleEndian_littleEndian hm, h, ofLittleEndian_littleEndian hn]

theorem splitAt?_append {a rest : Bytes} {n : Nat} (h : a.length = n) :
    Bytes.splitAt? n (a ++ rest) = some (a, rest) := by
  subst h
  simp [Bytes.splitAt?]

end FixedWidth

section Groups

theorem groups_of_lt {fuel n : Nat} (h : n < 128) : groups fuel n = [n.toUInt8] := by
  cases fuel with
  | zero => rfl
  | succ fuel => rw [groups, if_pos h]

theorem groups_of_le {fuel n : Nat} (h : 128 ≤ n) (hfuel : n ≤ fuel) :
    groups fuel n = (n % 128 + 128).toUInt8 :: groups (fuel - 1) (n / 128) := by
  cases fuel with
  | zero => omega
  | succ fuel => rw [groups, if_neg (by omega), Nat.add_sub_cancel]

/-- No number's groups are the start of another's. -/
theorem groups_append_inj {fuel fuel' m n : Nat} {s t : Bytes} (hm : m ≤ fuel) (hn : n ≤ fuel')
    (h : groups fuel m ++ s = groups fuel' n ++ t) : m = n ∧ s = t := by
  induction m using Nat.strongRecOn generalizing n fuel fuel' with
  | ind m ih =>
      by_cases hm' : m < 128
      · by_cases hn' : n < 128
        · rw [groups_of_lt hm', groups_of_lt hn'] at h
          obtain ⟨hbyte, hrest⟩ := List.cons.inj h
          exact ⟨toUInt8_inj (by omega) (by omega) hbyte, hrest⟩
        · rw [groups_of_lt hm', groups_of_le (by omega) hn] at h
          have := toUInt8_inj (by omega) (by omega) (List.cons.inj h).1
          omega
      · by_cases hn' : n < 128
        · rw [groups_of_le (by omega) hm, groups_of_lt hn'] at h
          have := toUInt8_inj (by omega) (by omega) (List.cons.inj h).1
          omega
        · rw [groups_of_le (by omega) hm, groups_of_le (by omega) hn] at h
          obtain ⟨hbyte, hrest⟩ := List.cons.inj h
          have hlow := toUInt8_inj (by omega) (by omega) hbyte
          obtain ⟨hhigh, hst⟩ := ih (m / 128) (by omega) (by omega) (by omega) hrest
          exact ⟨by omega, hst⟩

theorem varint_append_inj {m n : Nat} {s t : Bytes} (h : varint m ++ s = varint n ++ t) :
    m = n ∧ s = t :=
  groups_append_inj (Nat.le_refl m) (Nat.le_refl n) h

/-- A byte string with its length ends by itself. -/
theorem counted_append_inj {a b s t : Bytes} (h : counted a ++ s = counted b ++ t) :
    a = b ∧ s = t := by
  simp only [counted, List.append_assoc] at h
  obtain ⟨hlength, hrest⟩ := varint_append_inj h
  exact List.append_inj hrest hlength

theorem toUInt8_lt {n : Nat} (h : n < 128) : n.toUInt8 < 128 := by
  rw [UInt8.lt_iff_toNat_lt, toNat_toUInt8 (by omega)]
  exact h

theorem not_toUInt8_lt {n : Nat} (h : 128 ≤ n) (h' : n < 256) : ¬ n.toUInt8 < 128 := by
  rw [UInt8.lt_iff_toNat_lt, toNat_toUInt8 h']
  simp only [UInt8.reduceToNat]
  omega

theorem low_add_high (n shift : Nat) :
    n % 128 * 2 ^ shift + n / 128 * 2 ^ (shift + 7) = n * 2 ^ shift := by
  have hhigh : n / 128 * 2 ^ (shift + 7) = 128 * (n / 128) * 2 ^ shift := by
    rw [Nat.pow_add, Nat.mul_comm (2 ^ shift), ← Nat.mul_assoc, Nat.mul_comm (n / 128)]
  rw [hhigh, ← Nat.add_mul, Nat.mod_add_div]

/-- `left + 1` groups hold numbers of `7 * left + 1` bits, since the last group may only be one. -/
theorem readGroups_groups {left shift fuel n : Nat} {rest : Bytes} (hfuel : n ≤ fuel)
    (hn : n < 2 ^ (7 * left + 1)) :
    readGroups (left + 1) shift (groups fuel n ++ rest) = .ok (n * 2 ^ shift, rest) := by
  induction left generalizing shift fuel n with
  | zero =>
      have hsmall : n < 128 := by omega
      have hbyte := toNat_toUInt8 (show n < 256 by omega)
      have hlast : ¬ (1 : UInt8) < n.toUInt8 := by
        rw [UInt8.lt_iff_toNat_lt, hbyte, UInt8.toNat_one]
        omega
      rw [groups_of_lt hsmall, List.cons_append, List.nil_append, readGroups,
        if_pos (toUInt8_lt hsmall), if_neg (fun h => hlast h.2), hbyte]
  | succ left ih =>
      by_cases hsmall : n < 128
      · rw [groups_of_lt hsmall, List.cons_append, List.nil_append, readGroups,
          if_pos (toUInt8_lt hsmall), if_neg (by omega), toNat_toUInt8 (by omega)]
      · have hdiv : n / 128 < 2 ^ (7 * left + 1) := by
          rw [Nat.div_lt_iff_lt_mul (by decide)]
          calc n < 2 ^ (7 * (left + 1) + 1) := hn
            _ = 2 ^ (7 * left + 1 + 7) := by congr 1
            _ = 2 ^ (7 * left + 1) * 128 := Nat.pow_add 2 (7 * left + 1) 7
        rw [groups_of_le (by omega) hfuel, List.cons_append, readGroups,
          if_neg (not_toUInt8_lt (by omega) (by omega)), if_neg (by omega), ih (by omega) hdiv,
          toNat_toUInt8 (by omega), Nat.add_sub_cancel]
        simp only [bind, Except.bind, pure, Except.pure, low_add_high]

theorem readVarint?_varint {n : Nat} (rest : Bytes) (h : n < 2 ^ 64) :
    readVarint? (varint n ++ rest) = some (n, rest) := by
  rw [readVarint?, readVarint, varint, readGroups_groups (Nat.le_refl n) h]
  simp [Except.toOption]

theorem readCounted?_counted {b : Bytes} (rest : Bytes) (h : b.length < 2 ^ 64) :
    readCounted? (counted b ++ rest) = some (b, rest) := by
  rw [readCounted?, counted, List.append_assoc, readVarint?_varint _ h]
  exact splitAt?_append rfl

end Groups

end Arbor.Wire
