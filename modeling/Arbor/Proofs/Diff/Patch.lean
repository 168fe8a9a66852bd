import Arbor.Proofs.Codec.Acceptance
import Arbor.Proofs.Codec.JsonDepth
import Arbor.Proofs.Codec.JsonEdit
import Arbor.Proofs.Json.Replacement

/-! The pointer of a path leads in the JSON form of a tree to the node at the path. -/
namespace Arbor

namespace Path

theorem pointer_cons (i : Nat) (p : Path) :
    pointer (i :: p) =
      47 :: (Bytes.ofString Field.children.name ++ 47 :: (Bytes.ofNat i ++ p.pointer)) := rfl

theorem pointer_eq (p : Path) : p.pointer = p.keys.flatMap (47 :: ·) := by
  induction p with
  | nil => rfl
  | cons i p ih =>
      rw [pointer_cons, keys_cons, List.flatMap_cons, List.flatMap_cons, ← ih]
      rfl

theorem isToken_keys {p : Path} : ∀ key ∈ p.keys, key.IsToken := by
  intro key hkey
  obtain ⟨i, -, hkey⟩ := List.mem_flatMap.mp hkey
  simp only [List.mem_cons, List.not_mem_nil, or_false] at hkey
  rcases hkey with rfl | rfl
  · decide
  · exact .ofAreDigits (Bytes.areDigits_ofNat i)

/-- The pointer of a path below the root is read as the keys of the path. -/
theorem exists_ofText?_pointer {p : Path} (hne : p ≠ []) :
    ∃ q, Pointer.ofText? p.pointer = some q ∧ q.keys = p.keys := by
  rw [pointer_eq]
  refine Pointer.exists_ofText? ?_ ?_
  · cases p with
    | nil => exact absurd rfl hne
    | cons i p => exact List.cons_ne_nil _ _
  · intro key hkey
    exact ⟨(isToken_keys key hkey).not_mem rfl, (isToken_keys key hkey).not_mem rfl⟩

theorem isPlain_pointer (p : Path) : ∀ c ∈ p.pointer, JsonValue.IsPlain c ∧ c < 0x80 := by
  intro c hc
  rw [pointer_eq] at hc
  obtain ⟨key, hkey, hc⟩ := List.mem_flatMap.mp hc
  have htoken := isToken_keys key hkey
  rcases List.mem_cons.mp hc with rfl | hc
  · exact ⟨⟨by decide, by decide, by decide⟩, by decide⟩
  · have hlow := (Bytes.isTokenByte_toNat (htoken c hc)).1
    refine ⟨⟨by omega, ?_, ?_⟩, htoken.ascii c hc⟩
    · exact Bytes.ne_of_isTokenByte (htoken c hc) rfl
    · exact Bytes.ne_of_isTokenByte (htoken c hc) rfl

end Path

namespace Record

variable {limit : Int} {depth : Nat}

theorem eq_of_toTreesAt_ofTree {cs ts : List Tree}
    (hcs : ∀ c ∈ cs, ∀ t, (ofTree c).toTreeAt limit depth = .ok t → t = c)
    (h : toTreesAt limit depth (cs.map ofTree) = .ok ts) : ts = cs := by
  induction cs generalizing ts with
  | nil =>
      cases h
      rfl
  | cons c cs ih =>
      rw [List.map_cons, toTreesAt] at h
      obtain ⟨t, ht, h⟩ := bind_eq_ok_iff.mp h
      obtain ⟨us, hus, h⟩ := bind_eq_ok_iff.mp h
      cases h
      rw [hcs c List.mem_cons_self t ht, ih (fun e he => hcs e (List.mem_cons_of_mem c he)) hus]

/-- The record of a tree stands for no other tree. -/
theorem eq_of_toTreeAt_ofTree {t u : Tree} (h : (ofTree t).toTreeAt limit depth = .ok u) :
    u = t := by
  induction t generalizing depth u with
  | absent => cases h
  | node l cs ih =>
      rw [ofTree_node, toTreeAt, check_bind_eq_ok_iff] at h
      obtain ⟨hdepth, h⟩ := h
      simp only [Kind.ofName?_name] at h
      obtain ⟨ts, hts, h⟩ := bind_eq_ok_iff.mp h
      obtain ⟨-, rfl⟩ := Tree.ofKind_eq_ok_iff.mp h
      rw [Head.ofPayload_payload, eq_of_toTreesAt_ofTree (fun c hc t ht => ih c hc ht) hts]

theorem toTree_ofTree_eq_ok_iff {t u : Tree} :
    (ofTree t).toTree limit = .ok u ↔ t.validate limit = .ok () ∧ u = t := by
  constructor
  · intro h
    have heq := eq_of_toTreeAt_ofTree h
    subst heq
    exact ⟨validateAt_of_toTreeAt h, rfl⟩
  · rintro ⟨hvalid, rfl⟩
    exact toTreeAt_ofTree hvalid

end Record

namespace Codec

open JsonValue Record

variable {limit indent : Int} {m : Tree} {b pointer : Bytes}

/-- A patch with the text of a tree as its value is read if the tree is not nested too deeply two
levels down, and is refused if it is. -/
theorem parse?_replacementText_write (hb : write limit { format := .ok .json, indent } m = .ok b)
    (hpointer : ∀ c ∈ pointer, IsPlain c ∧ c < 0x80) :
    JsonValue.parse? (Patch.replacementText pointer b) =
      if m.depth ≤ 4999 then some (Patch.replacement pointer (ofTree m).toJson) else none := by
  obtain ⟨hm, htext, hfinite, -, rfl⟩ := write_json_eq_ok_iff.mp hb
  have hnesting := nesting_toJson (Tree.complete_of_validateAt hm)
  rw [← Tree.depth_eq_levels] at hnesting
  have hlayout := isBlank_jsonLayout indent
  have hwritable := writable_toJson htext hfinite
  have hends : Numeral.Ends [10, 125, 93] :=
    ends_append isBlank_end (ends_mark (.inr (.inr rfl)) [93])
  -- the value and the brackets after it are a layout at a level of its own, read two levels down
  have hbytes : jsonBytes indent m ++ [125, 93] =
      printOnto (jsonLayout indent) 0 [10, 125, 93] (ofTree m).toJson :=
    printOnto_append (jsonLayout indent) 0 [10] [125, 93] (ofTree m).toJson
  have hlength := Patch.length_replacementText pointer (jsonBytes indent m)
  obtain ⟨fuel, hfuel⟩ : ∃ fuel,
      2 * (Patch.replacementText pointer (jsonBytes indent m)).length + 2 = fuel + 6 :=
    ⟨2 * (Patch.replacementText pointer (jsonBytes indent m)).length - 4, by omega⟩
  have henough : 2 * (printOnto (jsonLayout indent) 0 [10, 125, 93] (ofTree m).toJson).length ≤
      fuel + 2 * [10, 125, 93].length := by
    rw [← hbytes, List.length_append]
    simp only [List.length_cons, List.length_nil]
    omega
  split
  next hdepth =>
    have hvalue := readBack hlayout hwritable fuel 2 0 _ henough
      (by rw [maxNesting]; omega) hends
    rw [← hbytes] at hvalue
    exact Patch.parse?_replacementText_eq_some hpointer hfuel hvalue rfl
  next hdepth =>
    have hvalue := refused hlayout hwritable fuel 2 0 _ henough (by decide)
      (by rw [maxNesting]; omega) hends
    rw [← hbytes] at hvalue
    exact Patch.parse?_replacementText_eq_none hpointer hfuel hvalue

end Codec

namespace Tree

open JsonValue Record Codec

variable {limit indent : Int} {t m old : Tree} {p : Path} {b text : Bytes}

theorem ofPatched_eq {form : JsonValue} {u : Tree} (h : Renders form.resolve u) :
    ofPatched limit form =
      if u.depth ≤ 5000 then ((ofTree u.plusZero).toTree limit).mapError .fault
      else .error .encoding := by
  have hnesting := h.nesting
  rw [nesting_resolve, ← depth_eq_levels] at hnesting
  obtain ⟨ms, hms, hread⟩ := h.read
  have hrecord : ofJson? form.resolve = some (ofTree u.plusZero) := by
    rw [hms]
    exact hread
  have hdeep : maxNesting < form.nesting ↔ ¬ u.depth ≤ 5000 := by
    rw [maxNesting]
    omega
  unfold ofPatched
  by_cases hdepth : u.depth ≤ 5000
  · rw [if_neg (fun h => hdeep.mp h hdepth), if_pos hdepth]
    simp only [Option.bind_some, hrecord]
    rfl
  · rw [if_pos (hdeep.mpr hdepth), if_neg hdepth]
    rfl

theorem exists_parseWith?_jsonBytes (indent : Int) (ht : t.Complete) (hdepth : t.depth ≤ 5000)
    (htext : t.EachHead fun h => Utf8.isValid h.payload.str = true)
    (hfinite : t.EachHead fun h => h.payload.float.isFinite = true) :
    ∃ doc, parseWith? .written (jsonBytes indent t) = some doc ∧
      doc.resolve = (ofTree t).toJson := by
  have hparse : JsonValue.parse? (jsonBytes indent t) = some (ofTree t).toJson :=
    parse?_print (isBlank_jsonLayout indent) (writable_toJson htext hfinite)
      ((nesting_le_iff ht).mpr hdepth) isBlank_end
  rwa [parse?_eq, Option.map_eq_some_iff] at hparse

/-- The form of a tree after a patch that replaces a node is read as the tree with the other
subtree. -/
theorem exists_patchedForm {op path : Bytes} {w : JsonValue} (ht : t.validate limit = .ok ())
    (hdepth : t.depth ≤ 5000) (htext : t.EachHead fun h => Utf8.isValid h.payload.str = true)
    (hfinite : t.EachHead fun h => h.payload.float.isFinite = true) (hne : p ≠ [])
    (hp : ∀ i ∈ p, i < 2 ^ 63) (hold : t.at? p = some old)
    (hop : textOf op = Bytes.ofString "replace") (hpath : textOf path = p.pointer)
    (hw : Renders w.resolve m) :
    ∃ form, t.patchedForm limit [Patch.replaceMembers op path w] = .ok form ∧
      Renders form.resolve (t.replaceAt p m) := by
  have hcomplete := complete_of_validateAt ht
  have hwrite : Codec.write limit {} t = .ok (jsonBytes 0 t) :=
    write_json ht (fun _ => (nesting_le_iff hcomplete).mpr hdepth) htext hfinite
  obtain ⟨doc, hdoc, hresolve⟩ := exists_parseWith?_jsonBytes 0 hcomplete hdepth htext hfinite
  obtain ⟨q, hq, hkeys⟩ := Path.exists_ofText?_pointer hne
  have hrun : Patch.run? [Patch.replaceMembers op path w] doc = putAt? w p.keys doc := by
    rw [Patch.run?_replaceMembers hop (hpath ▸ hq), hkeys]
  -- the patch is run on strings as they are written, the tree is read from their texts
  obtain ⟨v, hput, hv⟩ := exists_putAt?_keys hcomplete hfinite hw hp hold
  rw [← hresolve, putAt?_resolve, Option.map_eq_some_iff] at hput
  obtain ⟨form, hform, rfl⟩ := hput
  refine ⟨form, ?_, hv⟩
  rw [patchedForm, hwrite]
  simp only [Except.mapError, bind, Except.bind, hdoc, Option.bind_some, hrun, hform]

/-- A text that reads as the patch gives the tree that the record of the other tree stands for. -/
theorem applyPatch_of_parse? (ht : t.validate limit = .ok ()) (hdepth : t.depth ≤ 5000)
    (htext : t.EachHead fun h => Utf8.isValid h.payload.str = true)
    (hfinite : t.EachHead fun h => h.payload.float.isFinite = true) (hm : m.Complete)
    (hmfinite : m.EachHead fun h => h.payload.float.isFinite = true) (hne : p ≠ [])
    (hp : ∀ i ∈ p, i < 2 ^ 63) (hold : t.at? p = some old)
    (hpatch : JsonValue.parse? text = some (Patch.replacement p.pointer (ofTree m).toJson)) :
    t.applyPatch limit text =
      if (t.replaceAt p m).depth ≤ 5000 then
        ((ofTree (t.replaceAt p m).plusZero).toTree limit).mapError fun e => .codec (.fault e)
      else .error (.codec .encoding) := by
  obtain ⟨op, path, w, hparse, hop, hpath, hw⟩ := Patch.exists_replaceMembers hpatch
  have hrenders : Renders w.resolve m := by
    rw [hw]
    exact renders_toJson hm hmfinite
  obtain ⟨form, hform, hread⟩ :=
    exists_patchedForm ht hdepth htext hfinite hne hp hold hop hpath hrenders
  rw [applyPatch, hparse]
  simp only [hform, bind, Except.bind]
  rw [ofPatched_eq hread]
  split
  · cases (ofTree (t.replaceAt p m).plusZero).toTree limit <;> rfl
  · rfl

/-- What comes out where a tree is wanted: one that compares as zero with it, if it is valid and not
too deep to be read, and an error otherwise. -/
structure Gives (limit : Int) (result : Except PatchError Tree) (wanted : Tree) : Prop where
  tree : wanted.validate limit = .ok () → wanted.depth ≤ 5000 →
    ∃ u, result = .ok u ∧ u.compare limit wanted = .ok 0
  error : ¬ (wanted.validate limit = .ok () ∧ wanted.depth ≤ 5000) → ∃ e, result = .error e

theorem gives_toTree (limit : Int) (u : Tree) :
    Gives limit (if u.depth ≤ 5000 then
        ((ofTree u.plusZero).toTree limit).mapError fun e => .codec (.fault e)
      else .error (.codec .encoding)) u := by
  refine ⟨?_, ?_⟩
  · intro hvalid hshallow
    refine ⟨u.plusZero, ?_, compare_of_same hvalid u.plusZero_same⟩
    rw [if_pos hshallow,
      toTree_ofTree_eq_ok_iff.mpr ⟨u.plusZero_same.validateAt hvalid, rfl⟩]
    rfl
  · intro hunfit
    split
    next hshallow =>
      cases htree : (ofTree u.plusZero).toTree limit with
      | error e => exact ⟨_, rfl⟩
      | ok v =>
          obtain ⟨hplus, -⟩ := toTree_ofTree_eq_ok_iff.mp htree
          exact absurd ⟨u.plusZero_same.symm.validateAt hplus, hshallow⟩ hunfit
    next => exact ⟨_, rfl⟩

/-- In the JSON form of a tree that can be read back, the pointer of a path below the root leads to
the form of the node at the path; the indices of a path are integers of 64 bits. Let a patch replace
there, its value being the text of some tree: the patch put together from pointer and text, or any
other text that reads as the same. Applied to the first tree it gives the one with the second tree
in place of the node, if that is valid and not too deep, and an error otherwise. -/
theorem applyPatch_replace (ht : t.validate limit = .ok ()) (hdepth : t.depth ≤ 5000)
    (htext : t.EachHead fun h => Utf8.isValid h.payload.str = true)
    (hfinite : t.EachHead fun h => h.payload.float.isFinite = true) (hne : p ≠ [])
    (hp : ∀ i ∈ p, i < 2 ^ 63) (hold : t.at? p = some old)
    (hb : Codec.write limit { format := .ok .json, indent } m = .ok b) :
    (Pointer.ofText? p.pointer).bind (fun q => PatchStep.valueAt? q (ofTree t).toJson) =
        some (ofTree old).toJson ∧
      ∀ text, text = Patch.replacementText p.pointer b ∨
          JsonValue.parse? text = some (Patch.replacement p.pointer (ofTree m).toJson) →
        Gives limit (t.applyPatch limit text) (t.replaceAt p m) := by
  obtain ⟨hm, -, hmfinite, -, -⟩ := write_json_eq_ok_iff.mp hb
  have hread : ∀ text,
      JsonValue.parse? text = some (Patch.replacement p.pointer (ofTree m).toJson) →
        Gives limit (t.applyPatch limit text) (t.replaceAt p m) := by
    intro text hpatch
    rw [applyPatch_of_parse? ht hdepth htext hfinite (complete_of_validateAt hm) hmfinite hne hp
      hold hpatch]
    exact gives_toTree limit _
  refine ⟨?_, ?_⟩
  · obtain ⟨q, hq, hkeys⟩ := Path.exists_ofText?_pointer hne
    rw [hq, Option.bind_some, PatchStep.valueAt?_eq, hkeys, at?_keys hp hold]
  · rintro text (rfl | hpatch)
    · have hpatch := parse?_replacementText_write hb p.isPlain_pointer
      split at hpatch
      next => exact hread _ hpatch
      -- a value that is too deep for the patch is too deep for the tree below the root
      next hdeep =>
        have hself : (t.replaceAt p m).at? p = some m := at?_replaceAt_self hold
        have hlevels := levels_of_at? hself
        rw [← depth_eq_levels, ← depth_eq_levels] at hlevels
        have hlength : p.length ≠ 0 := by rwa [ne_eq, List.length_eq_zero_iff]
        rw [parse?_eq, Option.map_eq_none_iff] at hpatch
        rw [applyPatch, Patch.parse?, hpatch]
        exact ⟨fun _ hshallow => absurd hshallow (by omega), fun _ => ⟨_, rfl⟩⟩
    · exact hread text hpatch

/-- An integer in the place of an argument, and a block, which cannot stand there. -/
theorem applyPatch_replace_argument :
    let call (argument : Tree) := Tree.node .block [.node .expression [.node .invocation [
      .node (.identifier [0x66]) [], argument]]]
    let text (b : Bytes) := Patch.replacementText (Path.pointer [0, 0, 1]) b
    (∃ b, Codec.write 3 {} (.node (.integer 7) []) = .ok b ∧
      ∃ u, (call (.node (.string [0x22]) [])).applyPatch 3 (text b) = .ok u ∧
        u.compare 3 (call (.node (.integer 7) [])) = .ok 0) ∧
    ∃ b, Codec.write 3 {} (.node .block []) = .ok b ∧
      ∃ e, (call (.node (.string [0x22]) [])).applyPatch 3 (text b) = .error e := by
  intro call text
  have hvalid : (call (.node (.string [0x22]) [])).validate 3 = .ok () := rfl
  have hdepth : (call (.node (.string [0x22]) [])).depth ≤ 5000 := by
    rw [depth_eq_levels]
    decide
  have htext : (call (.node (.string [0x22]) [])).EachHead fun h =>
      Utf8.isValid h.payload.str = true := by
    simp only [call, eachHead_node_iff, List.forall_mem_cons, List.not_mem_nil, false_implies,
      implies_true, and_true]
    decide
  have hfinite : (call (.node (.string [0x22]) [])).EachHead fun h =>
      h.payload.float.isFinite = true := by
    simp only [call, eachHead_node_iff, List.forall_mem_cons, List.not_mem_nil, false_implies,
      implies_true, and_true]
    decide
  have hold : (call (.node (.string [0x22]) [])).at? [0, 0, 1] =
      some (.node (.string [0x22]) []) := rfl
  have hseven : Codec.write 3 {} (.node (.integer 7) []) =
      .ok (jsonBytes 0 (.node (.integer 7) [])) := by
    refine write_json_eq_ok_iff.mpr ⟨rfl, ?_, ?_, fun h => absurd h (by decide), rfl⟩
    · exact eachHead_node_iff.mpr ⟨rfl, by simp⟩
    · exact eachHead_node_iff.mpr ⟨rfl, by simp⟩
  have hblock : Codec.write 3 {} (.node .block []) = .ok (jsonBytes 0 (.node .block [])) := by
    refine write_json_eq_ok_iff.mpr ⟨rfl, ?_, ?_, fun h => absurd h (by decide), rfl⟩
    · exact eachHead_node_iff.mpr ⟨rfl, by simp⟩
    · exact eachHead_node_iff.mpr ⟨rfl, by simp⟩
  have hfits : (call (.node (.integer 7) [])).depth ≤ 5000 := by
    rw [depth_eq_levels]
    decide
  refine ⟨⟨_, hseven, ?_⟩, _, hblock, ?_⟩
  · obtain ⟨-, hgives⟩ :=
      applyPatch_replace hvalid hdepth htext hfinite (by decide) (by decide) hold hseven
    exact (hgives _ (.inl rfl)).tree rfl hfits
  · obtain ⟨-, hgives⟩ :=
      applyPatch_replace hvalid hdepth htext hfinite (by decide) (by decide) hold hblock
    refine (hgives _ (.inl rfl)).error ?_
    rintro ⟨hinvalid, -⟩
    cases hinvalid

end Tree

end Arbor
