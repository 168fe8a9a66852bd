import Arbor.Proofs.Wire.Words
import Arbor.Zstd.Frame

/-! Frames of raw blocks are read back as long as their size fits eight bytes. -/
namespace Arbor.Zstd

open Wire

theorem number?_littleEndian {width n : Nat} (rest : Bytes) (h : n < 256 ^ width) :
    number? width (littleEndian width n ++ rest) = some (n, rest) := by
  have hlength := littleEndian_length width n
  rw [number?, List.take_left' hlength, List.drop_left' hlength, if_pos hlength,
    ofLittleEndian_littleEndian h]

section Blocks

variable {window : Nat} {last : Bool} {b rest : Bytes}

theorem block?_raw {size : Nat} (hb : b.length = size) (hmax : size ≤ maxBlock)
    (hwindow : size ≤ window) :
    block? window (rawHeader last size ++ b ++ rest) = some (.raw b, last, rest) := by
  have hheader : 8 * size + (if last then 1 else 0) < 256 ^ 3 := by
    simp only [maxBlock] at hmax
    split <;> omega
  have hkind : (8 * size + (if last then 1 else 0)) / 2 % 4 = 0 := by split <;> omega
  have hsize : (8 * size + (if last then 1 else 0)) / 8 = size := by split <;> omega
  have hlast : decide ((8 * size + (if last then 1 else 0)) % 2 = 1) = last := by
    cases last <;> simp <;> omega
  rw [block?, rawHeader, List.append_assoc, number?_littleEndian _ hheader]
  simp only [bind, Option.bind, hsize, hkind, hlast]
  rw [if_neg (by omega), List.take_left' hb, List.drop_left' hb, if_pos hb]

theorem writeBlocks_length (fuel : Nat) (b : Bytes) : b.length < (writeBlocks fuel b).length := by
  induction fuel generalizing b with
  | zero => simp [writeBlocks, rawHeader]
  | succ fuel ih =>
      rw [writeBlocks]
      split
      · simp [rawHeader]
      · have hrest := ih (b.drop maxBlock)
        simp only [List.length_append, List.length_take, List.length_drop] at hrest ⊢
        omega

/-- Each round of reading takes one block, so one round more than full blocks is enough. -/
theorem blocks?_writeBlocks {fuel rounds : Nat} (hsize : b.length ≤ (fuel + 1) * maxBlock)
    (hwindow : b.length ≤ window) (hrounds : fuel < rounds) :
    blocks? window rounds (writeBlocks fuel b ++ rest) = some (b, rest) := by
  induction fuel generalizing b rounds with
  | zero =>
      obtain ⟨rounds, rfl⟩ : ∃ n, rounds = n + 1 := ⟨rounds - 1, by omega⟩
      rw [writeBlocks, blocks?, block?_raw rfl (by omega) hwindow]
      rfl
  | succ fuel ih =>
      obtain ⟨rounds, rfl⟩ : ∃ n, rounds = n + 1 := ⟨rounds - 1, by omega⟩
      rw [writeBlocks]
      split
      next hlast =>
        have hshort : b.length ≤ maxBlock := List.drop_eq_nil_iff.mp hlast
        rw [blocks?, block?_raw rfl hshort hwindow]
        rfl
      next hmore =>
        have hlong : maxBlock < b.length := by
          rw [List.drop_eq_nil_iff] at hmore
          omega
        have hfull : (b.take maxBlock).length = maxBlock := by
          rw [List.length_take]
          omega
        have hdrop : (b.drop maxBlock).length + maxBlock = b.length := by
          rw [List.length_drop]
          omega
        have hrest : blocks? window rounds (writeBlocks fuel (b.drop maxBlock) ++ rest) =
            some (b.drop maxBlock, rest) :=
          ih (by rw [Nat.succ_mul] at hsize; omega) (by omega) (by omega)
        rw [blocks?, List.append_assoc, block?_raw hfull (Nat.le_refl _) (by omega)]
        simp only [bind, Option.bind, hrest, Block.content, Bool.false_eq_true, if_false, pure,
          List.take_append_drop]

end Blocks

theorem header?_descriptor {n : Nat} (rest : Bytes) (h : n < 2 ^ 64) :
    header? (descriptor :: (littleEndian 8 n ++ rest)) =
      some ({ size := some n, window := max n 1024 }, rest) := by
  have hdescriptor (b : Bytes) : number? 1 (descriptor :: b) = some (224, b) := rfl
  have hnothing (b : Bytes) : number? 0 b = some (0, b) := rfl
  have hsize : number? 8 (littleEndian 8 n ++ rest) = some (n, rest) :=
    number?_littleEndian rest (by omega)
  rw [header?, hdescriptor]
  simp [hnothing, sizeWidth, hsize, bind, Option.bind]

theorem frame?_compress {b : Bytes} (rest : Bytes) (h : b.length < 2 ^ 64) :
    frame? (compress b ++ rest) = some (b, rest) := by
  have hcompress : compress b ++ rest = magic ++ (descriptor :: (littleEndian 8 b.length ++
      (writeBlocks (b.length / maxBlock) b ++ rest))) := by
    simp only [compress, List.append_assoc, List.cons_append, List.nil_append]
  have hblocks : blocks? (max b.length 1024)
      (writeBlocks (b.length / maxBlock) b ++ rest).length
      (writeBlocks (b.length / maxBlock) b ++ rest) = some (b, rest) := by
    have hlength := writeBlocks_length (b.length / maxBlock) b
    have hdiv := Nat.div_le_self b.length maxBlock
    refine blocks?_writeBlocks ?_ (Nat.le_max_left ..) ?_
    · have hblock : 0 < maxBlock := by decide
      rw [Nat.mul_comm]
      exact Nat.le_of_lt (Nat.lt_mul_div_succ b.length hblock)
    · rw [List.length_append]
      omega
  have hhead : header? ((magic ++ (descriptor :: (littleEndian 8 b.length ++
      (writeBlocks (b.length / maxBlock) b ++ rest)))).drop 4) =
        some ({ size := some b.length, window := max b.length 1024 },
          writeBlocks (b.length / maxBlock) b ++ rest) :=
    header?_descriptor _ h
  rw [hcompress, frame?, if_pos (by rfl), hhead]
  · simp only [bind, Option.bind, hblocks, Option.all_some, decide_true, if_true, pure]
  · intro m tail hskip
    cases hskip

/-- Decompression undoes compression. -/
theorem decompress?_compress {b : Bytes} (h : b.length < 2 ^ 64) :
    decompress? (compress b) = some b := by
  have hframe := frame?_compress [] h
  rw [List.append_nil] at hframe
  have hfuel : (compress b).length = (compress b).length - 1 + 1 := rfl
  rw [decompress?, hfuel, framesWith?, hframe]
  · simp only [bind, Option.bind, framesWith?, List.append_nil, pure]
  · intro hnil
    cases hnil

/-- What has been put into a frame is taken out of it again. The size of a content is a word of 64
bits. -/
def Coder.RoundTrips (z : Coder) : Prop :=
  ∀ b, b.length < 2 ^ 64 → z.decompress? (z.compress b) = some b

theorem rawCoder_roundTrips : rawCoder.RoundTrips := fun _ => decompress?_compress

/-- Bytes that begin like a frame, one with content or one to be skipped. -/
def StartsFrame (b : Bytes) : Prop :=
  magic <+: b ∨ ∃ m : UInt8, m / 16 = 5 ∧ [m, 0x2A, 0x4D, 0x18] <+: b

/-- The rules of frames. The size of a content is a word of 64 bits, and no bytes are no frame but
their content is empty. -/
structure Coder.Lawful (z : Coder) : Prop where
  decompress_compress : ∀ b, b.length < 2 ^ 64 → z.decompress? (z.compress b) = some b
  magic_compress : ∀ b, b ≠ [] → magic <+: z.compress b
  refuses : ∀ b, b ≠ [] → ¬ StartsFrame b → z.decompress? b = none

theorem frame?_eq_none {b : Bytes} (hb : ¬ StartsFrame b) : frame? b = none := by
  have hmagic : magic.isPrefixOf b = false := by
    rw [Bool.eq_false_iff, ne_eq, List.isPrefixOf_iff_prefix]
    exact fun h => hb (.inl h)
  unfold frame?
  split
  next m rest =>
    have hskip : ¬ m / 16 = 5 := fun hm => hb (.inr ⟨m, hm, rest, rfl⟩)
    cases number? 4 rest with
    | none => rfl
    | some n => exact if_pos (.inl hskip)
  next => rw [hmagic]; rfl

theorem rawCoder_lawful : rawCoder.Lawful where
  decompress_compress b hb := decompress?_compress hb
  magic_compress b hne := by
    show magic <+: compress b
    rw [compress, List.append_assoc, List.append_assoc]
    exact List.prefix_append _ _
  refuses b hne hb := by
    cases b with
    | nil => exact absurd rfl hne
    | cons c rest =>
        show framesWith? (rest.length + 1) (c :: rest) = none
        rw [framesWith?, frame?_eq_none hb]
        · rfl
        · intro hnil
          cases hnil

end Arbor.Zstd
