import Arbor.Number.Reading
import Arbor.Proofs.Wire.Words
import Mathlib.Data.List.Basic
import Mathlib.Tactic.Ring

/-! The decimal digits of a number are read as the number. -/
namespace Arbor

/-- Digits in a base, most significant first, after a number. -/
theorem foldl_digits {α : Type} (base : Nat) (value : α → Nat) (n : Nat) (ds : List α) :
    ds.foldl (fun n d => base * n + value d) n =
      n * base ^ ds.length + ds.foldl (fun n d => base * n + value d) 0 := by
  induction ds generalizing n with
  | nil => simp
  | cons d ds ih =>
      rw [List.foldl_cons, List.foldl_cons, ih, ih (base * 0 + value d), List.length_cons,
        Nat.pow_succ]
      ring

namespace Bytes

def AreDigits (b : Bytes) : Prop := ∀ x ∈ b, isDigit x = true

theorem isDigit_iff {x : UInt8} : isDigit x = true ↔ 48 ≤ x.toNat ∧ x.toNat ≤ 57 := by
  simp [isDigit, UInt8.le_iff_toNat_le]

namespace AreDigits

variable {a b : Bytes}

theorem nil : AreDigits [] := by
  intro x hx
  cases hx

theorem append (ha : AreDigits a) (hb : AreDigits b) : AreDigits (a ++ b) := by
  intro x hx
  rcases List.mem_append.mp hx with hx | hx
  · exact ha x hx
  · exact hb x hx

theorem zeros (n : Nat) : AreDigits (List.replicate n 48) := by
  intro x hx
  rw [List.eq_of_mem_replicate hx]
  rfl

theorem sublist (hb : AreDigits b) (h : a.Sublist b) : AreDigits a := by
  intro x hx
  exact hb x (h.subset hx)

end AreDigits

theorem natOfDigits_append (a b : Bytes) :
    natOfDigits (a ++ b) = natOfDigits a * 10 ^ b.length + natOfDigits b := by
  rw [natOfDigits, List.foldl_append]
  exact foldl_digits 10 (fun d : UInt8 => d.toNat - 48) _ b

theorem natOfDigits_zeros (n : Nat) : natOfDigits (List.replicate n 48) = 0 := by
  induction n with
  | zero => rfl
  | succ n ih =>
      rw [List.replicate_succ', natOfDigits_append, ih]
      rfl

section Naturals

theorem ofChar_digitChar {n : Nat} (h : n < 10) : ofChar (Nat.digitChar n) = (48 + n).toUInt8 := by
  have hall : ∀ n < 10, ofChar (Nat.digitChar n) = (48 + n).toUInt8 := by decide
  exact hall n h

theorem ofNat_of_lt {n : Nat} (h : n < 10) : ofNat n = [(48 + n).toUInt8] := by
  rw [ofNat, Nat.toDigits_of_lt_base h, List.map_singleton, ofChar_digitChar h]

theorem ofNat_of_le {n : Nat} (h : 10 ≤ n) :
    ofNat n = ofNat (n / 10) ++ [(48 + n % 10).toUInt8] := by
  have hmod := Nat.mod_lt n (show 10 > 0 by decide)
  have hdigits := Nat.toDigits_append_toDigits (b := 10) (n := n / 10) (by decide) (by omega) hmod
  rw [Nat.div_add_mod] at hdigits
  rw [← ofNat_of_lt hmod, ofNat, ofNat, ofNat, ← hdigits, List.map_append]

theorem toNat_digit {n : Nat} (h : n < 10) : ((48 + n).toUInt8).toNat = 48 + n :=
  Wire.toNat_toUInt8 (by omega)

theorem areDigits_ofNat (n : Nat) : AreDigits (ofNat n) := by
  induction n using Nat.strongRecOn with
  | ind n ih =>
      by_cases h : n < 10
      · rw [ofNat_of_lt h]
        intro x hx
        rw [List.mem_singleton.mp hx, isDigit_iff, toNat_digit h]
        omega
      · rw [ofNat_of_le (by omega)]
        refine (ih (n / 10) (by omega)).append ?_
        intro x hx
        rw [List.mem_singleton.mp hx, isDigit_iff, toNat_digit (by omega)]
        omega

theorem natOfDigits_ofNat (n : Nat) : natOfDigits (ofNat n) = n := by
  induction n using Nat.strongRecOn with
  | ind n ih =>
      by_cases h : n < 10
      · rw [ofNat_of_lt h, natOfDigits, List.foldl_cons, List.foldl_nil, toNat_digit h]
        omega
      · rw [ofNat_of_le (by omega), natOfDigits_append, ih (n / 10) (by omega), natOfDigits,
          List.foldl_cons, List.foldl_nil, toNat_digit (by omega), List.length_singleton]
        omega

theorem ofNat_ne_nil (n : Nat) : ofNat n ≠ [] := by
  by_cases h : n < 10
  · simp [ofNat_of_lt h]
  · simp [ofNat_of_le (Nat.le_of_not_lt h)]

theorem ofInt_ne_nil (i : Int) : ofInt i ≠ [] := by
  cases i with
  | ofNat n => exact ofNat_ne_nil n
  | negSucc n => exact List.cons_ne_nil _ _

theorem head?_ofNat_ne {n : Nat} (h : n ≠ 0) : (ofNat n).head? ≠ some 48 := by
  induction n using Nat.strongRecOn with
  | ind n ih =>
      by_cases hlt : n < 10
      · rw [ofNat_of_lt hlt, List.head?_cons, ne_eq, Option.some_inj, ← UInt8.toNat_inj,
          toNat_digit hlt]
        simpa using h
      · rw [ofNat_of_le (by omega), List.head?_append_of_ne_nil _ (ofNat_ne_nil _)]
        exact ih (n / 10) (by omega) (by omega)

theorem ofNat_zero : ofNat 0 = [48] := rfl

theorem length_ofNat (n : Nat) : (ofNat n).length = (Nat.toDigits 10 n).length :=
  List.length_map ofChar

end Naturals

end Bytes

namespace Reading

theorem hexValue?_digit {x : UInt8} (hx : Bytes.isDigit x = true) :
    Bytes.hexValue? x = some (x.toNat - 48) ∧ x.toNat - 48 < 10 := by
  obtain ⟨hlow, hhigh⟩ := Bytes.isDigit_iff.mp hx
  refine ⟨if_pos ?_, by omega⟩
  simp only [UInt8.le_iff_toNat_le]
  exact ⟨hlow, hhigh⟩

theorem digits?_eq {b : Bytes} (hb : b ≠ []) (h : b.AreDigits) :
    digits? 10 b = some b.natOfDigits := by
  have hfold : ∀ (b : Bytes) (n : Nat), b.AreDigits →
      b.foldl (fun acc x => do
        let n ← acc
        let d ← Bytes.hexValue? x
        if d < 10 then some (10 * n + d) else none) (some n) =
      some (b.foldl (fun n d => 10 * n + (d.toNat - 48)) n) := by
    intro b
    induction b with
    | nil => intro n _; rfl
    | cons x b ih =>
        intro n hdigits
        obtain ⟨hvalue, hlt⟩ := hexValue?_digit (hdigits x List.mem_cons_self)
        rw [List.foldl_cons, List.foldl_cons, ← ih _ fun y hy => hdigits y (List.mem_cons_of_mem x hy)]
        simp only [hvalue, Option.bind_eq_bind, Option.bind_some, if_pos hlt]
  rw [digits?, if_neg hb, hfold b 0 h]
  rfl

theorem hexValue?_hexDigit {n : Nat} (h : n < 16) :
    Bytes.hexValue? (Bytes.hexDigit n) = some n := by
  have hall : ∀ n < 16, Bytes.hexValue? (Bytes.hexDigit n) = some n := by decide
  exact hall n h

theorem digits?_hexFixed (width n : Nat) :
    digits? 16 (Bytes.hexFixed Bytes.hexDigit (width + 1) n) = some (n % 16 ^ (width + 1)) := by
  have hfold : ∀ width n : Nat, (Bytes.hexFixed Bytes.hexDigit width n).foldl (fun acc x => do
      let m ← acc
      let d ← Bytes.hexValue? x
      if d < 16 then some (16 * m + d) else none) (some 0) = some (n % 16 ^ width) := by
    intro width
    induction width with
    | zero =>
        intro n
        rw [Nat.pow_zero, Nat.mod_one]
        rfl
    | succ width ih =>
        intro n
        have hlt : n % 16 < 16 := Nat.mod_lt _ (by decide)
        have hvalue : n % 16 ^ (width + 1) = 16 * (n / 16 % 16 ^ width) + n % 16 := by
          rw [Nat.pow_succ', Nat.mod_mul]
          omega
        rw [Bytes.hexFixed, List.foldl_append, ih, hvalue]
        simp only [List.foldl_cons, List.foldl_nil, hexValue?_hexDigit hlt, Option.bind_eq_bind,
          Option.bind_some, if_pos hlt]
  rw [digits?, if_neg (by simp [Bytes.hexFixed]), hfold]

theorem digits?_eq_none {b : Bytes} {x : UInt8} (hx : x ∈ b) (hdigit : Bytes.isDigit x = false) :
    digits? 10 b = none := by
  have hvalue : ∀ d, Bytes.hexValue? x = some d → ¬ d < 10 := by
    intro d hd
    simp only [Bytes.isDigit, Bool.and_eq_false_iff, decide_eq_false_iff_not] at hdigit
    simp only [Bytes.hexValue?, UInt8.le_iff_toNat_le, UInt8.reduceToNat] at hd hdigit
    split at hd
    · omega
    · split at hd
      · cases hd
        omega
      · split at hd
        · cases hd
          omega
        · cases hd
  have hstep : ∀ acc : Option Nat, (do
      let n ← acc
      let d ← Bytes.hexValue? x
      if d < 10 then some (10 * n + d) else none) = none := by
    intro acc
    cases acc with
    | none => rfl
    | some n =>
        cases hd : Bytes.hexValue? x with
        | none => rfl
        | some d => exact if_neg (hvalue d hd)
  have hnone : ∀ b : Bytes, b.foldl (fun acc x => do
      let n ← acc
      let d ← Bytes.hexValue? x
      if d < 10 then some (10 * n + d) else none) (none : Option Nat) = none := by
    intro b
    induction b with
    | nil => rfl
    | cons y b ih => exact ih
  obtain ⟨before, after, rfl⟩ := List.append_of_mem hx
  rw [digits?, if_neg (by simp), List.foldl_append, List.foldl_cons, hstep, hnone]

theorem int64?_toInt (v : Int64) : int64? v.toInt = some v := by
  have hlow := v.le_toInt
  have hhigh := v.toInt_lt
  rw [int64?, if_pos, Int64.ofInt_toInt]
  unfold minInt64 maxInt64
  omega

theorem sign_cons {x : UInt8} (h : Bytes.isDigit x = true) (b : Bytes) :
    sign (x :: b) = (false, x :: b) := by
  obtain ⟨hlow, -⟩ := Bytes.isDigit_iff.mp h
  rw [sign.eq_3]
  · rintro rest ⟨⟩
    simp at hlow
  · rintro rest ⟨⟩
    simp at hlow

theorem sign_append {b : Bytes} (hne : b ≠ []) (h : b.AreDigits) (rest : Bytes) :
    sign (b ++ rest) = (false, b ++ rest) := by
  obtain ⟨x, b, rfl⟩ := List.exists_cons_of_ne_nil hne
  exact sign_cons (h x List.mem_cons_self) (b ++ rest)

theorem integer?_eq {b digits : Bytes} {negative : Bool} (hsign : sign b = (negative, digits))
    (hne : digits ≠ []) (hdigits : digits.AreDigits) :
    integer? b = int64? (if negative then -(digits.natOfDigits : Int) else digits.natOfDigits) := by
  unfold integer?
  rw [hsign]
  dsimp only
  rw [digits?_eq hne hdigits]
  rfl

theorem integer?_ofInt (v : Int64) : integer? (Bytes.ofInt v.toInt) = some v := by
  have hint := int64?_toInt v
  cases h : v.toInt with
  | ofNat n =>
      rw [h] at hint
      have hsign := sign_append (Bytes.ofNat_ne_nil n) (Bytes.areDigits_ofNat n) []
      rw [List.append_nil] at hsign
      rw [Bytes.ofInt, integer?_eq hsign (Bytes.ofNat_ne_nil n) (Bytes.areDigits_ofNat n),
        Bytes.natOfDigits_ofNat]
      exact hint
  | negSucc n =>
      rw [h, Int.negSucc_eq] at hint
      rw [Bytes.ofInt, integer?_eq (by rw [sign]) (Bytes.ofNat_ne_nil _)
        (Bytes.areDigits_ofNat _), Bytes.natOfDigits_ofNat, if_pos rfl]
      exact hint

end Reading

end Arbor
