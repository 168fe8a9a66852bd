import Arbor.Codec.Proto
import Arbor.Proofs.Text.Codes
import Arbor.Proofs.Tree.Validity

/-! What the bytes of numbers, tags, values and groups are, without a reader. -/
namespace Arbor.Wire

section Numbers

/-- A number in groups of seven bits, the lowest first. -/
inductive Groups : Nat → Bytes → Prop
  | last {c : UInt8} : c < 128 → Groups c.toNat [c]
  | more {c : UInt8} {n : Nat} {b : Bytes} :
      ¬ c < 128 → Groups n b → Groups (c.toNat - 128 + 128 * n) (c :: b)

structure IsVarint (n : Nat) (b : Bytes) : Prop where
  groups : Groups n b
  fits : n < 2 ^ 64
  short : b.length ≤ 10

theorem Groups.length_pos {n : Nat} {b : Bytes} (h : Groups n b) : 0 < b.length := by
  cases h <;> exact Nat.succ_pos _

theorem shift_groups (c n shift : Nat) :
    c * 2 ^ shift + n * 2 ^ (shift + 7) = (c + 128 * n) * 2 ^ shift := by
  rw [Nat.pow_add, Nat.add_mul, Nat.mul_comm 128 n, Nat.mul_assoc n, Nat.mul_comm 128]

/-- `left + 1` groups hold `7 * left + 1` bits, since the last of them may only be one. -/
theorem Groups.read {n : Nat} {v : Bytes} (h : Groups n v) {left shift : Nat} (rest : Bytes)
    (hlength : v.length ≤ left + 1) (hn : n < 2 ^ (7 * left + 1)) :
    readGroups (left + 1) shift (v ++ rest) = .ok (n * 2 ^ shift, rest) := by
  induction h generalizing left shift with
  | @last c hc =>
      have hlast : ¬ (left = 0 ∧ 1 < c) := by
        rintro ⟨rfl, hlt⟩
        rw [UInt8.lt_iff_toNat_lt, UInt8.toNat_one] at hlt
        omega
      rw [List.singleton_append, readGroups, if_pos hc, if_neg hlast]
  | @more c n v hc hv ih =>
      have hpos := hv.length_pos
      rw [List.length_cons] at hlength
      obtain ⟨left, rfl⟩ : ∃ k, left = k + 1 := ⟨left - 1, by omega⟩
      have hhigh : n < 2 ^ (7 * left + 1) := by
        have hpow : 2 ^ (7 * (left + 1) + 1) = 2 ^ (7 * left + 1) * 128 :=
          Nat.pow_add 2 (7 * left + 1) 7
        omega
      rw [List.cons_append, readGroups, if_neg hc, if_neg (Nat.succ_ne_zero left),
        ih (by omega) hhigh]
      simp only [bind, Except.bind, pure, Except.pure, shift_groups]

theorem groups_of_readGroups {left shift m : Nat} {b rest : Bytes}
    (h : readGroups (left + 1) shift b = .ok (m, rest)) :
    ∃ n v, m = n * 2 ^ shift ∧ b = v ++ rest ∧ Groups n v ∧ n < 2 ^ (7 * left + 1) ∧
      v.length ≤ left + 1 := by
  induction left generalizing shift m b with
  | zero =>
      cases b with
      | nil => cases h
      | cons c b =>
          rw [readGroups] at h
          split at h
          next hc =>
            split at h
            next => cases h
            next hlast =>
              cases h
              have hone : ¬ 1 < c := fun hlt => hlast ⟨rfl, hlt⟩
              rw [UInt8.lt_iff_toNat_lt, UInt8.toNat_one] at hone
              exact ⟨c.toNat, [c], rfl, rfl, .last hc, by omega, Nat.le_refl 1⟩
          next => cases h
  | succ left ih =>
      cases b with
      | nil => cases h
      | cons c b =>
          rw [readGroups] at h
          split at h
          next hc =>
            rw [if_neg (by omega)] at h
            cases h
            have hsmall : c.toNat < 128 := UInt8.lt_iff_toNat_lt.mp hc
            refine ⟨c.toNat, [c], rfl, rfl, .last hc, Nat.lt_of_lt_of_le hsmall ?_, by simp⟩
            exact Nat.pow_le_pow_right (show 0 < 2 by decide) (show 7 ≤ 7 * (left + 1) + 1 by omega)
          next hc =>
            rw [if_neg (Nat.succ_ne_zero left)] at h
            obtain ⟨⟨m', rest'⟩, hread, h⟩ := bind_eq_ok_iff.mp h
            cases h
            obtain ⟨n, v, rfl, rfl, hv, hn, hlength⟩ := ih hread
            have hbyte := c.toNat_lt
            have hpow : 2 ^ (7 * (left + 1) + 1) = 2 ^ (7 * left + 1) * 128 :=
              Nat.pow_add 2 (7 * left + 1) 7
            refine ⟨c.toNat - 128 + 128 * n, c :: v, shift_groups _ _ _, rfl, .more hc hv, ?_, ?_⟩
            · omega
            · rw [List.length_cons]
              omega

/-- A reader that takes exactly the bytes of a form from the front of its input. -/
def Takes {α : Type} (read : Bytes → Option (α × Bytes)) (form : α → Bytes → Prop) : Prop :=
  ∀ {a : α} {b rest : Bytes}, read b = some (a, rest) ↔ ∃ v, b = v ++ rest ∧ form a v

theorem Takes.map_snd_eq_some_iff {α : Type} {read : Bytes → Option (α × Bytes)}
    {form : α → Bytes → Prop} (hread : Takes read form) {b rest : Bytes} :
    (read b).map Prod.snd = some rest ↔ ∃ v, b = v ++ rest ∧ ∃ a, form a v := by
  rw [Option.map_eq_some_iff]
  constructor
  · rintro ⟨⟨a, rest⟩, hb, rfl⟩
    obtain ⟨v, rfl, hv⟩ := hread.mp hb
    exact ⟨v, rfl, a, hv⟩
  · rintro ⟨v, rfl, a, hv⟩
    exact ⟨(a, rest), hread.mpr ⟨v, rfl, hv⟩, rfl⟩

/-- A number is read in all of its forms and from nothing else. -/
theorem readVarint?_eq_some_iff {n : Nat} {b rest : Bytes} :
    readVarint? b = some (n, rest) ↔ ∃ v, b = v ++ rest ∧ IsVarint n v := by
  rw [readVarint?, readVarint]
  constructor
  · intro h
    cases hread : readGroups 10 0 b with
    | error e =>
        rw [hread] at h
        cases h
    | ok p =>
        rw [hread] at h
        cases h
        obtain ⟨m, v, hn, rfl, hv, hm, hlength⟩ := groups_of_readGroups hread
        rw [Nat.pow_zero, Nat.mul_one] at hn
        subst hn
        exact ⟨v, rfl, hv, hm, hlength⟩
  · rintro ⟨v, rfl, hv, hn, hlength⟩
    rw [hv.read rest hlength hn, Nat.pow_zero, Nat.mul_one]
    rfl

theorem IsVarint.length_pos {n : Nat} {b : Bytes} (h : IsVarint n b) : 0 < b.length :=
  h.groups.length_pos

theorem isVarint_singleton {c : UInt8} (hc : c < 128) : IsVarint c.toNat [c] := by
  have hlt : c.toNat < 128 := UInt8.lt_iff_toNat_lt.mp hc
  exact ⟨.last hc, by omega, by simp⟩

theorem splitAt?_eq_some_iff {n : Nat} {b front rest : Bytes} :
    Bytes.splitAt? n b = some (front, rest) ↔ b = front ++ rest ∧ front.length = n := by
  unfold Bytes.splitAt?
  constructor
  · intro h
    dsimp only at h
    split at h
    next hlength =>
      cases h
      exact ⟨(List.take_append_drop n b).symm, hlength⟩
    next => cases h
  · rintro ⟨rfl, rfl⟩
    simp

def IsCounted (content b : Bytes) : Prop :=
  ∃ v, IsVarint content.length v ∧ b = v ++ content

theorem readCounted?_eq_some_iff {content b rest : Bytes} :
    readCounted? b = some (content, rest) ↔ ∃ v, b = v ++ rest ∧ IsCounted content v := by
  simp only [readCounted?, Option.bind_eq_bind, Option.bind_eq_some_iff, Prod.exists,
    readVarint?_eq_some_iff, splitAt?_eq_some_iff]
  constructor
  · rintro ⟨n, tail, ⟨v, rfl, hv⟩, rfl, rfl⟩
    exact ⟨v ++ content, (List.append_assoc ..).symm, v, hv, rfl⟩
  · rintro ⟨w, rfl, v, hv, rfl⟩
    exact ⟨content.length, content ++ rest, ⟨v, List.append_assoc .., hv⟩, rfl, rfl⟩

theorem readFixed?_eq_some_iff {width n : Nat} {b rest : Bytes} :
    readFixed? width b = some (n, rest) ↔
      ∃ v, b = v ++ rest ∧ v.length = width ∧ ofLittleEndian v = n := by
  simp only [readFixed?, Option.map_eq_some_iff, Prod.exists, Prod.mk.injEq, splitAt?_eq_some_iff]
  constructor
  · rintro ⟨v, tail, ⟨rfl, hlength⟩, rfl, rfl⟩
    exact ⟨v, rfl, hlength, rfl⟩
  · rintro ⟨v, rfl, hlength, rfl⟩
    exact ⟨v, rest, ⟨rfl, hlength⟩, rfl, rfl⟩

end Numbers

section Values

structure IsTag (number : Nat) (type : WireType) (b : Bytes) : Prop where
  exists_varint : ∃ n, IsVarint n b ∧ number = n / 8 ∧ type = WireType.ofNumber (n % 8)
  pos : 0 < number
  lt : number < 2 ^ 31

theorem IsTag.length_pos {number : Nat} {type : WireType} {b : Bytes} (h : IsTag number type b) :
    0 < b.length := by
  obtain ⟨n, hn, -⟩ := h.exists_varint
  exact hn.length_pos

theorem readTag?_eq_some_iff {number : Nat} {type : WireType} {b rest : Bytes} :
    readTag? b = some (number, type, rest) ↔ ∃ v, b = v ++ rest ∧ IsTag number type v := by
  simp only [readTag?, Option.bind_eq_bind, Option.bind_eq_some_iff, Prod.exists,
    readVarint?_eq_some_iff, Option.ite_none_left_eq_some, Option.pure_def, Option.some.injEq,
    Prod.mk.injEq]
  constructor
  · rintro ⟨n, tail, ⟨v, rfl, hv⟩, hrange, rfl, rfl, rfl⟩
    exact ⟨v, rfl, ⟨n, hv, rfl, rfl⟩, by omega, by omega⟩
  · rintro ⟨v, rfl, ⟨n, hv, rfl, rfl⟩, hpos, hlt⟩
    exact ⟨n, rest, ⟨v, rfl, hv⟩, by omega, rfl, rfl, rfl⟩

theorem isTag_of_read {number : Nat} {type : WireType} {b : Bytes}
    (h : readTag? b = some (number, type, [])) : IsTag number type b := by
  obtain ⟨v, hv, htag⟩ := readTag?_eq_some_iff.mp h
  rwa [hv, List.append_nil]

mutual

/-- The value of a field in some form, with at most `nest` groups inside each other. -/
inductive IsValue : Nat → Nat → WireType → Bytes → Prop
  | varint {nest number n : Nat} {b : Bytes} : IsVarint n b → IsValue nest number .varint b
  | fixed64 {nest number : Nat} {b : Bytes} : b.length = 8 → IsValue nest number .fixed64 b
  | fixed32 {nest number : Nat} {b : Bytes} : b.length = 4 → IsValue nest number .fixed32 b
  | bytes {nest number : Nat} {content b : Bytes} :
      IsCounted content b → IsValue nest number .bytes b
  | group {nest number : Nat} {b : Bytes} :
      IsGroup nest number b → IsValue (nest + 1) number .startGroup b

/-- The fields of a group up to the tag with its number that ends it. -/
inductive IsGroup : Nat → Nat → Bytes → Prop
  | stop {nest number : Nat} {tag : Bytes} : IsTag number .endGroup tag → IsGroup nest number tag
  | field {nest number inner : Nat} {type : WireType} {tag value rest : Bytes} :
      IsTag inner type tag → IsValue nest inner type value → IsGroup nest number rest →
      IsGroup nest number (tag ++ (value ++ rest))

end

variable {fuel level nest number : Nat} {type : WireType} {b rest : Bytes}

/-- With fuel for two steps a byte, values and groups are skipped in all of their forms. -/
theorem skip_of_isValue (fuel : Nat) :
    (∀ {level nest number : Nat} {type : WireType} {v : Bytes}, IsValue nest number type v →
      level + nest = maxGroups + 1 → 2 * v.length < fuel → ∀ rest,
      skipValue? fuel level number type (v ++ rest) = some rest) ∧
    ∀ {level nest number : Nat} {v : Bytes}, IsGroup nest number v →
      level + nest = maxGroups → 2 * v.length ≤ fuel → ∀ rest,
      skipGroup? fuel level number (v ++ rest) = some rest := by
  induction fuel with
  | zero =>
      refine ⟨fun _ _ hfuel => absurd hfuel (Nat.not_lt_zero _), ?_⟩
      intro level nest number v hv _ hfuel
      have hpos : 0 < v.length := by
        cases hv with
        | stop htag => exact htag.length_pos
        | field htag _ _ =>
            have := htag.length_pos
            rw [List.length_append]
            omega
      omega
  | succ fuel ih =>
      obtain ⟨ihvalue, ihgroup⟩ := ih
      constructor
      · intro level nest number type v hv hlevel hfuel rest
        cases hv with
        | varint hn =>
            exact (Takes.map_snd_eq_some_iff readVarint?_eq_some_iff).mpr ⟨v, rfl, _, hn⟩
        | fixed64 hlength | fixed32 hlength =>
            exact (Takes.map_snd_eq_some_iff readFixed?_eq_some_iff).mpr ⟨v, rfl, _, hlength, rfl⟩
        | bytes hcounted =>
            exact (Takes.map_snd_eq_some_iff readCounted?_eq_some_iff).mpr ⟨v, rfl, _, hcounted⟩
        | group hgroup =>
            rw [skipValue?, if_neg (by omega)]
            exact ihgroup hgroup (by omega) (by omega) rest
      · intro level nest number v hv hlevel hfuel rest
        cases hv with
        | stop htag =>
            rw [skipGroup?, readTag?_eq_some_iff.mpr ⟨v, rfl, htag⟩]
            simp
        | @field _ _ inner type tag value more htag hvalue hmore =>
            have hpos := htag.length_pos
            simp only [List.length_append] at hfuel
            have htype : type ≠ .endGroup := by
              rintro rfl
              cases hvalue
            rw [List.append_assoc, List.append_assoc, skipGroup?,
              readTag?_eq_some_iff.mpr ⟨tag, rfl, htag⟩]
            simp only [Option.bind_eq_bind, Option.bind_some, if_neg htype]
            rw [ihvalue hvalue (by omega) (by omega), Option.bind_some]
            exact ihgroup hmore hlevel (by omega) rest

/-- Nothing but values and groups is skipped. -/
theorem isValue_of_skip (fuel : Nat) :
    (∀ {level nest number : Nat} {type : WireType} {b rest : Bytes},
      level + nest = maxGroups + 1 → skipValue? fuel level number type b = some rest →
      ∃ v, b = v ++ rest ∧ IsValue nest number type v) ∧
    ∀ {level nest number : Nat} {b rest : Bytes},
      level + nest = maxGroups → skipGroup? fuel level number b = some rest →
      ∃ v, b = v ++ rest ∧ IsGroup nest number v := by
  induction fuel with
  | zero =>
      constructor
      · intro level nest number type b rest _ h
        cases h
      · intro level nest number b rest _ h
        cases h
  | succ fuel ih =>
      obtain ⟨ihvalue, ihgroup⟩ := ih
      constructor
      · intro level nest number type b rest hlevel h
        cases type with
        | varint =>
            obtain ⟨v, rfl, n, hv⟩ := (Takes.map_snd_eq_some_iff readVarint?_eq_some_iff).mp h
            exact ⟨v, rfl, .varint hv⟩
        | fixed64 =>
            obtain ⟨v, rfl, n, hv, -⟩ := (Takes.map_snd_eq_some_iff readFixed?_eq_some_iff).mp h
            exact ⟨v, rfl, .fixed64 hv⟩
        | fixed32 =>
            obtain ⟨v, rfl, n, hv, -⟩ := (Takes.map_snd_eq_some_iff readFixed?_eq_some_iff).mp h
            exact ⟨v, rfl, .fixed32 hv⟩
        | bytes =>
            obtain ⟨v, rfl, content, hv⟩ :=
              (Takes.map_snd_eq_some_iff readCounted?_eq_some_iff).mp h
            exact ⟨v, rfl, .bytes hv⟩
        | startGroup =>
            rw [skipValue?] at h
            split at h
            · cases h
            · obtain ⟨nest, rfl⟩ : ∃ k, nest = k + 1 := ⟨nest - 1, by omega⟩
              obtain ⟨v, rfl, hv⟩ := ihgroup (show level + nest = maxGroups by omega) h
              exact ⟨v, rfl, .group hv⟩
        | endGroup => cases h
        | reserved n => cases h
      · intro level nest number b rest hlevel h
        simp only [skipGroup?, Option.bind_eq_bind, Option.bind_eq_some_iff, Prod.exists,
          readTag?_eq_some_iff] at h
        obtain ⟨inner, type, tail, ⟨tag, rfl, htag⟩, h⟩ := h
        split at h
        next htype =>
          split at h
          next hinner =>
            subst htype hinner
            cases h
            exact ⟨tag, rfl, .stop htag⟩
          next => cases h
        next htype =>
          obtain ⟨more, hskip, hmore⟩ := Option.bind_eq_some_iff.mp h
          obtain ⟨value, rfl, hvalue⟩ :=
            ihvalue (show level + 1 + nest = maxGroups + 1 by omega) hskip
          obtain ⟨v, rfl, hv⟩ := ihgroup hlevel hmore
          refine ⟨tag ++ (value ++ v), ?_, .field htag hvalue hv⟩
          simp only [List.append_assoc]

end Values

section Fields

variable {nest : Nat}

/-- A field with at most `nest` groups inside each other: its tag, and a value of the form that the
tag tells. -/
structure WireField (nest : Nat) where
  number : Nat
  bytes : Bytes
  exists_value : ∃ type tag value, IsTag number type tag ∧ IsValue nest number type value ∧
    bytes = tag ++ value

def join (fs : List (WireField nest)) : Bytes := fs.flatMap WireField.bytes

@[simp] theorem join_nil : join ([] : List (WireField nest)) = [] := rfl

@[simp] theorem join_cons (f : WireField nest) (fs : List (WireField nest)) :
    join (f :: fs) = f.bytes ++ join fs := List.flatMap_cons

theorem WireField.bytes_ne_nil (f : WireField nest) : f.bytes ≠ [] := by
  obtain ⟨type, tag, value, htag, -, hbytes⟩ := f.exists_value
  have hpos := htag.length_pos
  intro hnil
  rw [hnil] at hbytes
  rw [(List.append_eq_nil_iff.mp hbytes.symm).1] at hpos
  cases hpos

/-- Where groups are not nested too deeply, a field is told from what follows it: its tag is read
and its value is skipped. -/
theorem WireField.separates (f g : WireField (maxGroups + 1)) :
    Separates WireField.bytes WireField.bytes (· = ·) f g := by
  intro s r h
  obtain ⟨number, bytes, type, tag, value, htag, hvalue, rfl⟩ := f
  obtain ⟨number', bytes', type', tag', value', htag', hvalue', rfl⟩ := g
  dsimp only at h
  have hread : readTag? (tag ++ value ++ s) = some (number, type, value ++ s) :=
    readTag?_eq_some_iff.mpr ⟨tag, List.append_assoc .., htag⟩
  have hread' : readTag? (tag ++ value ++ s) = some (number', type', value' ++ r) :=
    readTag?_eq_some_iff.mpr ⟨tag', h.trans (List.append_assoc ..), htag'⟩
  rw [hread] at hread'
  simp only [Option.some.injEq, Prod.mk.injEq] at hread'
  obtain ⟨rfl, rfl, hrest⟩ := hread'
  have hskip := (skip_of_isValue _).1 hvalue (Nat.zero_add _)
    (Nat.lt_succ_of_le (Nat.le_add_right (2 * value.length) (2 * value'.length))) s
  rw [hrest, (skip_of_isValue _).1 hvalue' (Nat.zero_add _)
    (Nat.lt_succ_of_le (Nat.le_add_left (2 * value'.length) (2 * value.length))) r] at hskip
  obtain rfl : r = s := Option.some.inj hskip
  obtain hbytes : tag ++ value = tag' ++ value' := List.append_cancel_right h
  simp only [hbytes, and_self]

/-- Bytes are a sequence of fields in one way at most. -/
theorem join_inj {fs gs : List (WireField (maxGroups + 1))} (h : join fs = join gs) : fs = gs := by
  have hall := forall₂_of_flatMap_eq (fun f _ g _ => f.separates g) (fun f _ => f.bytes_ne_nil)
    (fun g _ => g.bytes_ne_nil) h
  rwa [List.forall₂_eq_eq_eq] at hall

end Fields

end Arbor.Wire
