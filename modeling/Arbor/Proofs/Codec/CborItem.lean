import Arbor.Codec.Cbor
import Arbor.Proofs.Number.Numeral
import Arbor.Proofs.Wire.Words

/-! A counted list is read back item by item, and not at all if one of its items is not. -/
namespace Arbor

namespace CborItem

section Words

theorem bigEndian_succ (width n : Nat) :
    bigEndian (width + 1) n = (n / 256 ^ width % 256).toUInt8 :: bigEndian width n := by
  unfold bigEndian
  rw [List.range_succ_eq_map, List.map_cons, List.map_map]
  congr 1
  refine List.map_congr_left ?_
  intro i hi
  have hlt := List.mem_range.mp hi
  have hplace : width + 1 - 1 - (i + 1) = width - 1 - i := by omega
  rw [Function.comp_apply, Nat.succ_eq_add_one, hplace]

theorem length_bigEndian (width n : Nat) : (bigEndian width n).length = width := by
  rw [bigEndian, List.length_map, List.length_range]

theorem ofBigEndian_cons (x : UInt8) (b : Bytes) :
    ofBigEndian (x :: b) = x.toNat * 256 ^ b.length + ofBigEndian b := by
  rw [ofBigEndian, List.foldl_cons, foldl_digits 256 UInt8.toNat, Nat.mul_zero, Nat.zero_add]
  rfl

theorem ofBigEndian_bigEndian (width n : Nat) :
    ofBigEndian (bigEndian width n) = n % 256 ^ width := by
  induction width with
  | zero =>
      rw [Nat.pow_zero, Nat.mod_one]
      rfl
  | succ width ih =>
      have hdigit : (n / 256 ^ width % 256).toUInt8.toNat = n / 256 ^ width % 256 :=
        Wire.toNat_toUInt8 (Nat.mod_lt _ (by decide))
      rw [bigEndian_succ, ofBigEndian_cons, length_bigEndian, ih, hdigit, Nat.pow_succ,
        Nat.mod_mul, Nat.mul_comm, Nat.add_comm]

end Words

section Heads

variable {major n : Nat}

theorem initial_toNat (hmajor : major < 8) {info : Nat} (hinfo : info < 32) :
    ((32 * major + info).toUInt8).toNat / 32 = major ∧
      ((32 * major + info).toUInt8).toNat % 32 = info := by
  rw [Wire.toNat_toUInt8 (by omega)]
  omega

theorem readHead?_wide (info width : Nat) (hmajor : major < 8)
    (hinfo : (info, width) ∈ [(24, 1), (25, 2), (26, 4), (27, 8)]) (hn : n < 256 ^ width)
    (rest : Bytes) :
    readHead? ((32 * major + info).toUInt8 :: (bigEndian width n ++ rest)) =
      some ⟨major, info, some n, rest⟩ := by
  have hlt : info < 32 := by
    simp only [List.mem_cons, Prod.mk.injEq, List.not_mem_nil, or_false] at hinfo
    omega
  obtain ⟨hdiv, hmod⟩ := initial_toNat hmajor hlt
  rw [readHead?]
  dsimp only
  rw [hdiv, hmod]
  simp only [List.mem_cons, Prod.mk.injEq, List.not_mem_nil, or_false] at hinfo
  rcases hinfo with ⟨rfl, rfl⟩ | ⟨rfl, rfl⟩ | ⟨rfl, rfl⟩ | ⟨rfl, rfl⟩
  all_goals
    rw [if_neg (by decide)]
    simp only [Wire.splitAt?_append (length_bigEndian _ n), Option.map_some, ofBigEndian_bigEndian,
      Nat.mod_eq_of_lt hn]

theorem readHead?_head (hmajor : major < 8) (hn : n < 2 ^ 64) (rest : Bytes) :
    ∃ info, readHead? (head major n ++ rest) = some ⟨major, info, some n, rest⟩ := by
  unfold head
  dsimp only
  split
  next hsmall =>
    obtain ⟨hdiv, hmod⟩ := initial_toNat hmajor (Nat.lt_trans hsmall (by decide))
    refine ⟨n, ?_⟩
    rw [List.singleton_append, readHead?]
    dsimp only
    rw [hdiv, hmod, if_pos hsmall]
  next =>
    split
    next h => exact ⟨24, readHead?_wide 24 1 hmajor (by decide) h rest⟩
    next =>
      split
      next h => exact ⟨25, readHead?_wide 25 2 hmajor (by decide) h rest⟩
      next =>
        split
        next h => exact ⟨26, readHead?_wide 26 4 hmajor (by decide) h rest⟩
        next => exact ⟨27, readHead?_wide 27 8 hmajor (by decide) hn rest⟩

theorem length_head_pos (major n : Nat) : 0 < (head major n).length := by
  unfold head
  dsimp only
  split_ifs <;> exact Nat.succ_pos _

end Heads

/-- Bytes, and the item they are read as, if they are. -/
structure Coded where
  bytes : Bytes
  item? : Option CborItem

/-- Whatever follows, the bytes are read as the item, or not at all if there is none, with fuel for
two steps a byte and where `height` arrays and maps fit inside each other. -/
def Reads (c : Coded) (height : Nat) : Prop :=
  ∀ (fuel level : Nat) (rest : Bytes), 2 * c.bytes.length ≤ fuel → level + height ≤ maxNesting →
    read fuel level (c.bytes ++ rest) = c.item?.map (·, rest)

theorem Reads.mono {c : Coded} {height higher : Nat} (h : Reads c height) (hle : height ≤ higher) :
    Reads c higher :=
  fun fuel level rest hfuel hlevel => h fuel level rest hfuel (by omega)

theorem Reads.of_succ {c : Coded} {height : Nat} (hpos : 0 < c.bytes.length)
    (h : ∀ (fuel level : Nat) (rest : Bytes),
      2 * c.bytes.length ≤ fuel + 1 → level + height ≤ maxNesting →
        read (fuel + 1) level (c.bytes ++ rest) = c.item?.map (·, rest)) :
    Reads c height := by
  intro fuel level rest hfuel hlevel
  cases fuel with
  | zero => omega
  | succ fuel => exact h fuel level rest hfuel hlevel

section Scalars

theorem reads_unsigned {n : Nat} (hn : n < 2 ^ 64) : Reads ⟨head 0 n, unsigned n⟩ 0 := by
  refine .of_succ (length_head_pos 0 n) ?_
  intro fuel level rest _ _
  obtain ⟨info, hhead⟩ := readHead?_head (show 0 < 8 by decide) hn rest
  rw [read, hhead]
  rfl

theorem reads_negative {n : Nat} (hn : n < 2 ^ 64) : Reads ⟨head 1 n, negative n⟩ 0 := by
  refine .of_succ (length_head_pos 1 n) ?_
  intro fuel level rest _ _
  obtain ⟨info, hhead⟩ := readHead?_head (show 1 < 8 by decide) hn rest
  rw [read, hhead]
  rfl

def ofInt64 (v : Int64) : CborItem :=
  match v.toInt with
  | .ofNat n => unsigned n
  | .negSucc n => negative n

theorem reads_int (v : Int64) : Reads ⟨Record.cborInt v, ofInt64 v⟩ 0 := by
  have hlow := v.le_toInt
  have hhigh := v.toInt_lt
  unfold Record.cborInt ofInt64
  cases h : v.toInt with
  | ofNat n =>
      rw [h, Int.ofNat_eq_natCast] at hhigh
      exact reads_unsigned (by omega)
  | negSucc n =>
      rw [h] at hlow
      exact reads_negative (by omega)

theorem reads_text {b : Bytes} (hb : b.length < 2 ^ 64) :
    Reads ⟨Record.cborText b, text [b]⟩ 0 := by
  have hpos := length_head_pos 3 b.length
  refine .of_succ ?_ ?_
  · rw [Record.cborText, List.length_append]
    omega
  · intro fuel level rest _ _
    obtain ⟨info, hhead⟩ := readHead?_head (show 3 < 8 by decide) hb (b ++ rest)
    rw [Record.cborText, List.append_assoc, read, hhead]
    simp only [Option.bind_eq_bind, Option.bind_some, Wire.splitAt?_append]
    rfl

theorem reads_true : Reads ⟨[0xF5], simple 21⟩ 0 := by
  refine .of_succ (by decide) ?_
  intro fuel level rest _ _
  rfl

theorem reads_wide {n : Nat} {item : CborItem} (info width : Nat)
    (hinfo : (info, width) ∈ [(24, 1), (25, 2), (26, 4), (27, 8)]) (hn : n < 256 ^ width)
    (hitem : simpleOrFloat? info n = some item) :
    Reads ⟨(32 * 7 + info).toUInt8 :: bigEndian width n, item⟩ 0 := by
  refine .of_succ (Nat.succ_pos _) ?_
  intro fuel level rest _ _
  have hhead := readHead?_wide info width (show 7 < 8 by decide) hinfo hn rest
  rw [List.cons_append, read, hhead]
  simp only [Option.bind_eq_bind, Option.bind_some, hitem]
  rfl

/-- A number other than zero, NaNs as the one NaN. -/
theorem reads_float {x : Binary64} (hx : x.isZero = false) :
    Reads ⟨Record.cborFloat x, float ⟨x.canonicalBits⟩⟩ 0 := by
  unfold Record.cborFloat Binary64.canonicalBits
  split
  next => exact reads_wide 25 2 (n := 0x7E00) (by decide) (by decide) rfl
  next =>
    rw [hx]
    split
    -- two bytes are widened to the same infinity
    next hinfinite =>
      have hmagnitude : x.magnitude = Binary64.infinityPattern := of_decide_eq_true hinfinite
      have hself : (⟨x.bits⟩ : Binary64) = Binary64.infinity x.negative := by
        rw [Binary64.infinity, ← hmagnitude, Binary64.ofParts_self]
      rw [if_neg Bool.false_ne_true, hself]
      cases x.negative with
      | false => exact reads_wide 25 2 (n := 0x7C00) (by decide) (by decide) rfl
      | true => exact reads_wide 25 2 (n := 0xFC00) (by decide) (by decide) rfl
    next =>
      refine reads_wide 27 8 (by decide) x.bits.toNat_lt ?_
      rw [simpleOrFloat?, Nat.toUInt64, UInt64.ofNat_toNat]
      rfl

end Scalars

/-- Where one more array or map fits, only its length can be too much. -/
theorem guard_eq_true_iff {height level n : Nat} (hlevel : level + (height + 1) ≤ maxNesting) :
    (decide (maxNesting ≤ level) || decide (maxCount < n)) = true ↔ maxCount < n := by
  rw [Bool.or_eq_true, decide_eq_true_eq, decide_eq_true_eq]
  omega

section Arrays

variable {height : Nat} {cs : List Coded}

theorem readItems_succ (fuel level n : Nat) (b : Bytes) :
    readItems (fuel + 1) level false (n + 1) b =
      (read fuel level b).bind fun p =>
        (readItems fuel level false n p.2).map fun q => (p.1 :: q.1, q.2) := by
  rw [readItems]
  · cases read fuel level b with
    | none => rfl
    | some p => cases h : readItems fuel level false n p.2 <;> simp [h]
  · simp

/-- Items one after another are read as a list of as many, if each of them is read. -/
theorem readItems_flatMap (hcs : ∀ c ∈ cs, 0 < c.bytes.length ∧ Reads c height) {fuel level : Nat}
    {rest : Bytes} (hfuel : 2 * (cs.flatMap Coded.bytes).length + 1 ≤ fuel)
    (hlevel : level + height ≤ maxNesting) :
    readItems fuel level false cs.length (cs.flatMap Coded.bytes ++ rest) =
      (cs.mapM Coded.item?).map (·, rest) := by
  induction cs generalizing fuel with
  | nil =>
      obtain ⟨fuel, rfl⟩ : ∃ k, fuel = k + 1 := ⟨fuel - 1, by omega⟩
      rfl
  | cons c cs ih =>
      obtain ⟨fuel, rfl⟩ : ∃ k, fuel = k + 1 := ⟨fuel - 1, by omega⟩
      -- an item has a byte at least, which pays for the step
      obtain ⟨hpos, hread⟩ := hcs c List.mem_cons_self
      rw [List.flatMap_cons, List.length_append] at hfuel
      have hfuel' : 2 * (cs.flatMap Coded.bytes).length + 1 ≤ fuel := by omega
      have hitem := hread fuel level (cs.flatMap Coded.bytes ++ rest) (by omega) hlevel
      have hitems := ih (fun d hd => hcs d (List.mem_cons_of_mem c hd)) hfuel'
      rw [List.length_cons, List.flatMap_cons, List.append_assoc, readItems_succ, hitem,
        List.mapM_cons]
      cases c.item? with
      | none => rfl
      | some item =>
          rw [Option.map_some, Option.bind_some, hitems]
          cases cs.mapM Coded.item? <;> rfl

/-- An array. Readers refuse it if it is too long or has an item in it that they do not read. -/
def Coded.array (cs : List Coded) : Coded where
  bytes := head 4 cs.length ++ cs.flatMap Coded.bytes
  item? := if cs.length ≤ maxCount then (cs.mapM Coded.item?).map .array else none

theorem Coded.bytes_array_pos (cs : List Coded) : 0 < (array cs).bytes.length := by
  have hpos := length_head_pos 4 cs.length
  rw [array, List.length_append]
  omega

theorem reads_array (hcount : cs.length < 2 ^ 64)
    (hcs : ∀ c ∈ cs, 0 < c.bytes.length ∧ Reads c height) : Reads (.array cs) (height + 1) := by
  refine .of_succ (Coded.bytes_array_pos cs) ?_
  intro fuel level rest hfuel hlevel
  have hpos := length_head_pos 4 cs.length
  obtain ⟨info, hhead⟩ :=
    readHead?_head (show 4 < 8 by decide) hcount (cs.flatMap Coded.bytes ++ rest)
  simp only [Coded.array, List.length_append] at hfuel ⊢
  rw [List.append_assoc, read, hhead]
  simp only [Option.bind_eq_bind, Option.bind_some, Option.any_some, guard_eq_true_iff hlevel,
    Option.isNone_some, Option.getD_some]
  by_cases hle : cs.length ≤ maxCount
  · rw [if_neg (by omega), if_pos hle, readItems_flatMap hcs (by omega) (by omega)]
    cases cs.mapM Coded.item? <;> rfl
  · rw [if_pos (by omega), if_neg hle, Option.map_none]

end Arrays

section Maps

variable {height : Nat} {es : List (Field × Coded)}

def entryBytes (e : Field × Coded) : Bytes := head 0 e.1.number ++ e.2.bytes

def pair? (e : Field × Coded) : Option (CborItem × CborItem) :=
  e.2.item?.map (.unsigned e.1.number, ·)

theorem readEntries_succ (fuel level n : Nat) (b : Bytes) :
    readEntries (fuel + 1) level false (n + 1) b =
      (read fuel level b).bind fun k => (read fuel level k.2).bind fun p =>
        (readEntries fuel level false n p.2).map fun q => ((k.1, p.1) :: q.1, q.2) := by
  rw [readEntries]
  · cases read fuel level b with
    | none => rfl
    | some k =>
        cases hp : read fuel level k.2 with
        | none => simp [hp]
        | some p => cases h : readEntries fuel level false n p.2 <;> simp [hp, h]
  · simp

theorem number_lt (f : Field) : f.number < 2 ^ 64 := by
  cases f <;> decide

/-- Entries one after another are read as a list of as many, if each value is read. -/
theorem readEntries_flatMap (hes : ∀ e ∈ es, Reads e.2 height) {fuel level : Nat} {rest : Bytes}
    (hfuel : 2 * (es.flatMap entryBytes).length + 1 ≤ fuel) (hlevel : level + height ≤ maxNesting) :
    readEntries fuel level false es.length (es.flatMap entryBytes ++ rest) =
      (es.mapM pair?).map (·, rest) := by
  induction es generalizing fuel with
  | nil =>
      obtain ⟨fuel, rfl⟩ : ∃ k, fuel = k + 1 := ⟨fuel - 1, by omega⟩
      rfl
  | cons e es ih =>
      obtain ⟨fuel, rfl⟩ : ∃ k, fuel = k + 1 := ⟨fuel - 1, by omega⟩
      have hpos := length_head_pos 0 e.1.number
      rw [List.flatMap_cons, entryBytes, List.length_append, List.length_append] at hfuel
      have hfuel' : 2 * (es.flatMap entryBytes).length + 1 ≤ fuel := by omega
      have hkey := reads_unsigned (number_lt e.1) fuel level
        (e.2.bytes ++ (es.flatMap entryBytes ++ rest)) (by dsimp only; omega) (by omega)
      have hvalue := hes e List.mem_cons_self fuel level (es.flatMap entryBytes ++ rest)
        (by omega) hlevel
      have hentries := ih (fun d hd => hes d (List.mem_cons_of_mem e hd)) hfuel'
      rw [List.length_cons, List.flatMap_cons, entryBytes, List.append_assoc, List.append_assoc,
        readEntries_succ, hkey, Option.map_some, Option.bind_some, hvalue, List.mapM_cons, pair?]
      cases e.2.item? with
      | none => rfl
      | some item =>
          rw [Option.map_some, Option.bind_some, hentries]
          cases es.mapM pair? <;> rfl

def Coded.map (es : List (Field × Coded)) : Coded where
  bytes := head 5 es.length ++ es.flatMap entryBytes
  item? := (es.mapM pair?).map .map

theorem Coded.bytes_map_pos (es : List (Field × Coded)) : 0 < (map es).bytes.length := by
  have hpos := length_head_pos 5 es.length
  rw [map, List.length_append]
  omega

theorem reads_map (hcount : es.length ≤ maxCount) (hes : ∀ e ∈ es, Reads e.2 height) :
    Reads (.map es) (height + 1) := by
  refine .of_succ (Coded.bytes_map_pos es) ?_
  intro fuel level rest hfuel hlevel
  have hpos := length_head_pos 5 es.length
  have hlt : es.length < 2 ^ 64 := Nat.lt_of_le_of_lt hcount (by decide)
  obtain ⟨info, hhead⟩ := readHead?_head (show 5 < 8 by decide) hlt (es.flatMap entryBytes ++ rest)
  simp only [Coded.map, List.length_append] at hfuel ⊢
  rw [List.append_assoc, read, hhead]
  simp only [Option.bind_eq_bind, Option.bind_some, Option.any_some, guard_eq_true_iff hlevel,
    Option.isNone_some, Option.getD_some]
  rw [if_neg (by omega), readEntries_flatMap hes (by omega) (by omega)]
  cases es.mapM pair? <;> rfl

end Maps

end CborItem

end Arbor
