import Arbor.Proofs.Codec.Json
import Arbor.Proofs.Json.Nesting

/-! JSON is written in lines, and read at all, down to five thousand levels only. -/
namespace Arbor.Codec

open Record

variable {limit indent : Int} {t : Tree}

theorem write_json_eq_ok_iff {b : Bytes} :
    write limit { format := .ok .json, indent } t = .ok b ↔
      t.validate limit = .ok () ∧ (t.EachHead fun h => Utf8.isValid h.payload.str = true) ∧
        (t.EachHead fun h => h.payload.float.isFinite = true) ∧ (0 < indent → t.depth ≤ 5000) ∧
          jsonBytes indent t = b := by
  have hrecord : writeRecord indent (ofTree t) .json = .ok b ↔
      writeJson? indent (ofTree t) = some b := by
    rw [writeRecord]
    cases writeJson? indent (ofTree t) <;> simp [encoded]
  rw [write_eq_ok_iff (by decide), hrecord, writeJson?_ofTree_eq_some_iff]
  simp only [Format.objection?_eq_none_iff (f := .json) (by decide) (by decide)]
  refine and_congr_right fun ht => and_congr_right fun _ => and_congr_right fun _ => ?_
  rw [nesting_le_iff (Tree.complete_of_validateAt ht)]

/-- What is written in JSON is read exactly if the tree has at most five thousand levels. -/
theorem read_of_write_json {b : Bytes}
    (hb : write limit { format := .ok .json, indent } t = .ok b) :
    read limit { format := .ok .json } b =
      if t.depth ≤ 5000 then .ok t.plusZero else .error .encoding := by
  obtain ⟨ht, htext, hfinite, -, rfl⟩ := write_json_eq_ok_iff.mp hb
  have hcomplete := Tree.complete_of_validateAt ht
  split
  next hdepth => exact read_json ht ((nesting_le_iff hcomplete).mpr hdepth) htext hfinite
  next hdepth =>
    have hparse : JsonValue.parse? (jsonBytes indent t) = none := by
      rw [jsonBytes, JsonValue.parse?_print_eq (isBlank_jsonLayout indent)
        (writable_toJson htext hfinite) isBlank_end]
      exact if_neg (mt (nesting_le_iff hcomplete).mp hdepth)
    rw [read_eq (by decide) (by rw [head?_jsonBytes hcomplete]; decide), readRecord?, readJson?,
      hparse]
    rfl

/-- A tree is written in JSON if it is valid, its texts are UTF-8 and its numbers finite, and
besides, where lines are laid out, if it has at most five thousand levels. What is written is read
as the tree up to the signs of zeros if it has no more levels than that, and is not read if it has
more. -/
theorem json_levels (limit : Int) (t : Tree) :
    (∀ indent : Int, (∃ b, write limit { format := .ok .json, indent } t = .ok b) ↔
      t.validate limit = .ok () ∧ (t.EachHead fun h => Utf8.isValid h.payload.str = true) ∧
        (t.EachHead fun h => h.payload.float.isFinite = true) ∧ (0 < indent → t.depth ≤ 5000)) ∧
      ∀ (indent : Int) (b : Bytes), write limit { format := .ok .json, indent } t = .ok b →
        read limit { format := .ok .json } b =
          if t.depth ≤ 5000 then .ok t.plusZero else .error .encoding := by
  refine ⟨?_, fun indent b => read_of_write_json⟩
  intro indent
  simp only [write_json_eq_ok_iff, exists_and_left, exists_eq', and_true]

section Negations

def negations : Nat → Tree
  | 0 => .node (.integer 1) []
  | n + 1 => .node (.unary [45] false) [negations n]

theorem negations_family (n : Nat) :
    ∃ h cs, negations n = .node h cs ∧ h.kind.family = .expression := by
  cases n with
  | zero => exact ⟨_, _, rfl, rfl⟩
  | succ n => exact ⟨_, _, rfl, rfl⟩

theorem validateAt_negations {depth n : Nat} (hdepth : (depth + n : Nat) ≤ limit) :
    (negations n).validateAt limit depth = .ok () := by
  induction n generalizing depth with
  | zero => exact Tree.validateAt_node_iff.mpr ⟨by omega, rfl, by simp⟩
  | succ n ih =>
      obtain ⟨h, cs, hn, hfamily⟩ := negations_family n
      refine Tree.validateAt_node_iff.mpr ⟨by omega, ?_, ?_⟩
      · rw [hn]
        simp [Tree.check, Tree.checkChildren, hfamily]
        rfl
      · intro c hc
        rw [List.mem_singleton.mp hc]
        exact ih (by omega)

theorem depth_negations (n : Nat) : (negations n).depth = n + 1 := by
  rw [Tree.depth_eq_levels]
  induction n with
  | zero => rfl
  | succ n ih =>
      rw [negations, Tree.levels, Tree.fold_node, ← Tree.levels, List.map_singleton, ih]
      simp

theorem eachHead_negations {p : Head → Prop} (hleaf : p (.integer 1))
    (hoperator : p (.unary [45] false)) (n : Nat) : (negations n).EachHead p := by
  induction n with
  | zero => exact Tree.eachHead_node_iff.mpr ⟨hleaf, by simp⟩
  | succ n ih => exact Tree.eachHead_node_iff.mpr ⟨hoperator, by simpa using ih⟩

theorem isValid_negations (n : Nat) :
    (negations n).EachHead fun h => Utf8.isValid h.payload.str = true :=
  eachHead_negations (p := fun h => Utf8.isValid h.payload.str = true) rfl rfl n

theorem isFinite_negations (n : Nat) :
    (negations n).EachHead fun h => h.payload.float.isFinite = true :=
  eachHead_negations (p := fun h => h.payload.float.isFinite = true) rfl rfl n

theorem plusZero_negations (n : Nat) : (negations n).plusZero = negations n := by
  induction n with
  | zero => rfl
  | succ n ih =>
      rw [negations, Tree.plusZero_node, List.map_singleton, ih]
      rfl

end Negations

/-- Five thousand levels are written in lines and read back. -/
theorem json_levels_negations :
    ∃ b, write 10000 { format := .ok .json, indent := 2 } (negations 4999) = .ok b ∧
      read 10000 { format := .ok .json } b = .ok (negations 4999) := by
  obtain ⟨hwrite, hread⟩ := json_levels 10000 (negations 4999)
  obtain ⟨b, hb⟩ := (hwrite 2).mpr ⟨validateAt_negations (by decide), isValid_negations _,
    isFinite_negations _, fun _ => by rw [depth_negations]⟩
  refine ⟨b, hb, ?_⟩
  rw [hread 2 b hb, if_pos (by rw [depth_negations]), plusZero_negations]

/-- One more level is written on one line, and neither written in lines nor read. -/
theorem not_read_negations :
    (negations 5000).validate 10000 = .ok () ∧
      (∃ b, write 10000 { format := .ok .json } (negations 5000) = .ok b ∧
        read 10000 { format := .ok .json } b = .error .encoding) ∧
      ¬ ∃ b, write 10000 { format := .ok .json, indent := 2 } (negations 5000) = .ok b := by
  have hvalid : (negations 5000).validate 10000 = .ok () := validateAt_negations (by decide)
  have hdeep : ¬ (negations 5000).depth ≤ 5000 := by
    rw [depth_negations]
    decide
  have hwrite : write 10000 { format := .ok .json } (negations 5000) =
      .ok (jsonBytes 0 (negations 5000)) :=
    write_json_eq_ok_iff.mpr ⟨hvalid, isValid_negations _, isFinite_negations _,
      fun h => absurd h (by decide), rfl⟩
  refine ⟨hvalid, ⟨_, hwrite, ?_⟩, ?_⟩
  · rw [read_of_write_json hwrite, if_neg hdeep]
  · rintro ⟨b, hb⟩
    obtain ⟨-, -, -, hshallow, -⟩ := write_json_eq_ok_iff.mp hb
    exact hdeep (hshallow (by decide))

end Arbor.Codec
