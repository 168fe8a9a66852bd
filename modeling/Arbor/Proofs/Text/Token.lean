import Arbor.Kind
import Arbor.Proofs.Number.Digits
import Arbor.Proofs.Text.Utf8
import Mathlib.Data.List.TakeDrop

/-! Names of fields are words of small letters. -/
namespace Arbor

namespace Utf8

variable {b : Bytes}

theorem pieces_cons {c : UInt8} (hc : c < 0x80) (rest : Bytes) :
    pieces (c :: rest) = .scalar (Char.ofNat c.toNat) :: pieces rest := by
  rw [pieces, piecesAfter, scalar?.eq_def, if_pos hc]
  rfl

theorem pieces_ascii (hb : ∀ c ∈ b, c < 0x80) :
    pieces b = b.map fun c => .scalar (Char.ofNat c.toNat) := by
  induction b with
  | nil => rfl
  | cons c b ih =>
      rw [pieces_cons (hb c List.mem_cons_self), ih fun d hd => hb d (List.mem_cons_of_mem c hd),
        List.map_cons]

theorem isValid_ascii (hb : ∀ c ∈ b, c < 0x80) : isValid b = true := by
  rw [isValid, pieces_ascii hb, List.all_map]
  exact List.all_eq_true.mpr fun _ _ => rfl

theorem chars_ascii (hb : ∀ c ∈ b, c < 0x80) : chars b = b.map fun c => Char.ofNat c.toNat := by
  rw [chars, pieces_ascii hb, List.map_map]
  rfl

end Utf8

namespace Bytes

theorem takeWhile_append {keep : UInt8 → Bool} {a b : Bytes} (ha : ∀ c ∈ a, keep c = true)
    (hb : ∀ c, b.head? = some c → keep c = false) : (a ++ b).takeWhile keep = a := by
  rw [List.takeWhile_append_of_pos ha]
  cases b with
  | nil => exact List.append_nil a
  | cons c b => rw [List.takeWhile_cons_of_neg (by simp [hb c rfl]), List.append_nil]

theorem takeWhile_ne {x : UInt8} {a : Bytes} (ha : x ∉ a) (b : Bytes) :
    (a ++ x :: b).takeWhile (· ≠ x) = a := by
  refine takeWhile_append (fun c hc => decide_eq_true fun heq => ha (heq ▸ hc)) ?_
  rintro c ⟨⟩
  exact decide_eq_false fun h => h rfl

theorem dropWhile_append {drop : UInt8 → Bool} {a b : Bytes} (ha : ∀ c ∈ a, drop c = true)
    (hb : ∀ c, b.head? = some c → drop c = false) : (a ++ b).dropWhile drop = b := by
  rw [List.dropWhile_append_of_pos ha]
  cases b with
  | nil => rfl
  | cons c b => rw [List.dropWhile_cons_of_neg (by simp [hb c rfl])]

theorem not_mem_blanks {c : UInt8} (hc : c ≠ 32) (n : Nat) : c ∉ blanks n :=
  fun h => hc (List.eq_of_mem_replicate h)

/-- A text is cut where the first byte of another kind stands. -/
theorem span_append {keep : UInt8 → Bool} {a b : Bytes} (ha : ∀ c ∈ a, keep c = true)
    (hb : ∀ c, b.head? = some c → keep c = false) : (a ++ b).span keep = (a, b) := by
  rw [List.span_eq_takeWhile_dropWhile, takeWhile_append ha hb, dropWhile_append ha hb]

structure IsWord (b : Bytes) : Prop where
  ne_nil : b ≠ []
  letters : ∀ c ∈ b, 97 ≤ c ∧ c ≤ 122

namespace IsWord

variable {b : Bytes}

instance (b : Bytes) : Decidable b.IsWord :=
  decidable_of_iff (b ≠ [] ∧ b.all (fun c => 97 ≤ c ∧ c ≤ 122) = true)
    ⟨fun h => ⟨h.1, by simpa using h.2⟩, fun h => ⟨h.ne_nil, by simpa using h.letters⟩⟩

theorem toNat (hb : b.IsWord) {c : UInt8} (hc : c ∈ b) : 97 ≤ c.toNat ∧ c.toNat ≤ 122 :=
  ⟨UInt8.le_iff_toNat_le.mp (hb.letters c hc).1, UInt8.le_iff_toNat_le.mp (hb.letters c hc).2⟩

theorem not_mem (hb : b.IsWord) {c : UInt8} (hc : c.toNat < 97) : c ∉ b :=
  fun hmem => absurd (hb.toNat hmem).1 (by omega)

theorem exists_cons (hb : b.IsWord) : ∃ c cs, b = c :: cs ∧ 97 ≤ c.toNat ∧ c.toNat ≤ 122 := by
  obtain ⟨c, cs, rfl⟩ := List.exists_cons_of_ne_nil hb.ne_nil
  exact ⟨c, cs, rfl, hb.toNat List.mem_cons_self⟩

theorem exists_cons_ne (hb : b.IsWord) :
    ∃ c cs, b = c :: cs ∧ ∀ d : UInt8, d.toNat < 97 → c ≠ d := by
  obtain ⟨c, cs, hcs, hlow, -⟩ := hb.exists_cons
  refine ⟨c, cs, hcs, ?_⟩
  rintro d hd rfl
  omega

theorem isValid (hb : b.IsWord) : Utf8.isValid b = true := by
  refine Utf8.isValid_ascii fun c hc => ?_
  obtain ⟨-, hhigh⟩ := hb.toNat hc
  exact UInt8.lt_iff_toNat_lt.mpr (Nat.lt_of_le_of_lt hhigh (by decide))

end IsWord

def isTokenByte (c : UInt8) : Bool :=
  isDigit c || (65 ≤ c && c ≤ 90) || (97 ≤ c && c ≤ 122) || c = 43 || c = 45 || c = 46

def IsToken (b : Bytes) : Prop := ∀ c ∈ b, isTokenByte c = true

instance (b : Bytes) : Decidable b.IsToken :=
  decidable_of_iff (b.all isTokenByte = true) List.all_eq_true

theorem isTokenByte_toNat {c : UInt8} (hc : isTokenByte c = true) :
    43 ≤ c.toNat ∧ c.toNat ≤ 122 := by
  simp only [isTokenByte, isDigit, Bool.or_eq_true, Bool.and_eq_true, decide_eq_true_eq,
    UInt8.le_iff_toNat_le, ← UInt8.toNat_inj, UInt8.reduceToNat] at hc
  omega

theorem ne_of_isTokenByte {c d : UInt8} (hc : isTokenByte c = true) (hd : isTokenByte d = false) :
    c ≠ d := by
  rintro rfl
  exact Bool.noConfusion (hc.symm.trans hd)

namespace IsToken

variable {a b : Bytes}

theorem ofIsWord (hb : b.IsWord) : IsToken b := by
  intro c hc
  obtain ⟨hlow, hhigh⟩ := hb.toNat hc
  simp [isTokenByte, UInt8.le_iff_toNat_le, hlow, hhigh]

theorem nil : IsToken [] := by
  intro c hc
  cases hc

theorem cons {c : UInt8} (hc : isTokenByte c = true) (hb : IsToken b) : IsToken (c :: b) := by
  intro d hd
  rcases List.mem_cons.mp hd with rfl | hd
  · exact hc
  · exact hb d hd

theorem append (ha : IsToken a) (hb : IsToken b) : IsToken (a ++ b) := by
  intro c hc
  rcases List.mem_append.mp hc with hc | hc
  · exact ha c hc
  · exact hb c hc

theorem ofAreDigits (hb : b.AreDigits) : IsToken b := by
  intro c hc
  simp [isTokenByte, hb c hc]

theorem ofInt (i : Int) : IsToken (ofInt i) := by
  cases i with
  | ofNat n => exact .ofAreDigits (areDigits_ofNat n)
  | negSucc n => exact .cons rfl (.ofAreDigits (areDigits_ofNat (n + 1)))

theorem name (k : Kind) : IsToken (ofString k.name) := by
  cases k <;> decide

theorem not_mem (hb : IsToken b) {d : UInt8} (hd : isTokenByte d = false) : d ∉ b :=
  fun hmem => ne_of_isTokenByte (hb d hmem) hd rfl

theorem ascii (hb : IsToken b) : ∀ c ∈ b, c < 0x80 := by
  intro c hc
  have hbounds := isTokenByte_toNat (hb c hc)
  exact UInt8.lt_iff_toNat_lt.mpr (Nat.lt_of_le_of_lt hbounds.2 (by decide))

theorem trimBlank (hb : IsToken b) : Reading.trimBlank b = b := by
  have hsolid : ∀ c ∈ b, Reading.isBlank (Char.ofNat c.toNat) = false := by
    intro c hc
    obtain ⟨hlow, hhigh⟩ := isTokenByte_toNat (hb c hc)
    have hnat : (Char.ofNat c.toNat).toNat = c.toNat :=
      Utf8.toNat_ofNat_of_valid (.inl (by omega))
    simp only [Reading.isBlank, hnat]
    simp
    omega
  have hkeep : ∀ (drop : Utf8.Piece → Bool) (ps : List Utf8.Piece),
      (∀ p ∈ ps, drop p = false) → ps.dropWhile drop = ps := by
    intro drop ps hps
    cases ps with
    | nil => rfl
    | cons p ps => rw [List.dropWhile_cons_of_neg (by simp [hps p List.mem_cons_self])]
  unfold Reading.trimBlank
  extract_lets drop
  have hdrop : ∀ p ∈ Utf8.pieces b, drop p = false := by
    rw [Utf8.pieces_ascii hb.ascii]
    intro p hp
    obtain ⟨c, hc, rfl⟩ := List.mem_map.mp hp
    exact hsolid c hc
  rw [hkeep drop _ hdrop, hkeep drop _ fun p hp => hdrop p (List.mem_reverse.mp hp),
    List.reverse_reverse, Utf8.pieces, Utf8.flatMap_bytes_piecesAfter, List.drop_zero]

end IsToken

end Bytes

end Arbor
