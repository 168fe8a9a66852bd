import Arbor.Proofs.Json.Nesting
import Arbor.Proofs.Json.Patch
import Arbor.Proofs.Text.Token

/-! A patch with one operation, which replaces. -/
namespace Arbor.Patch

open JsonValue

def replaceMembers (op path : Bytes) (v : JsonValue) : List Member :=
  [(Bytes.ofString "op", .string op), (Bytes.ofString "path", .string path),
    (Bytes.ofString "value", v)]

def replacement (pointer : Bytes) (v : JsonValue) : JsonValue :=
  .array [.object (replaceMembers (Bytes.ofString "replace") pointer v)]

def replacementText (pointer value : Bytes) : Bytes :=
  Bytes.ofString "[\x7b\"op\":\"replace\",\"path\":\"" ++ pointer ++
    Bytes.ofString "\",\"value\":" ++ value ++ Bytes.ofString "\x7d]"

section Running

/-- What a patch keeps of a text that reads as the one that replaces, its strings as written. -/
theorem exists_replaceMembers {text pointer : Bytes} {v : JsonValue}
    (htext : JsonValue.parse? text = some (replacement pointer v)) :
    ∃ op path w, Patch.parse? text = some [replaceMembers op path w] ∧
      textOf op = Bytes.ofString "replace" ∧ textOf path = pointer ∧ w.resolve = v := by
  rw [parse?_eq, Option.map_eq_some_iff] at htext
  obtain ⟨r, hr, hresolve⟩ := htext
  obtain ⟨ws, rfl, hws⟩ := resolve_eq_array_iff.mp hresolve
  obtain ⟨x, rfl, hx⟩ := List.map_eq_singleton_iff.mp hws
  obtain ⟨ns, rfl, hns⟩ := resolve_eq_object_iff.mp hx
  simp only [replaceMembers, List.map_eq_cons_iff, List.map_eq_nil_iff, Prod.map, id_eq,
    Prod.mk.injEq] at hns
  obtain ⟨⟨_, s⟩, _, rfl, ⟨rfl, hs⟩, ⟨_, s'⟩, _, rfl, ⟨rfl, hs'⟩, ⟨_, w⟩, _, rfl, ⟨rfl, hw⟩,
    rfl⟩ := hns
  obtain ⟨op, rfl, hop⟩ := resolve_eq_string_iff.mp hs
  obtain ⟨path, rfl, hpath⟩ := resolve_eq_string_iff.mp hs'
  refine ⟨op, path, w, ?_, hop, hpath, hw⟩
  rw [Patch.parse?, hr]
  rfl

theorem run?_replaceMembers {op path : Bytes} {p : Pointer}
    (hop : textOf op = Bytes.ofString "replace")
    (hpath : Pointer.ofText? (textOf path) = some p) (v doc : JsonValue) :
    run? [replaceMembers op path v] doc = putAt? v p.keys doc := by
  have hstep : PatchStep.ofMembers? (replaceMembers op path v) = some (.replace p v) := by
    have hkeys : PatchStep.textMember? "op" (replaceMembers op path v) = some (textOf op) ∧
        PatchStep.textMember? "path" (replaceMembers op path v) = some (textOf path) ∧
        member? (Bytes.ofString "value") (replaceMembers op path v) = some v := ⟨rfl, rfl, rfl⟩
    have hname : (Bytes.ofString "replace").toStringD = "replace" := by decide
    simp only [PatchStep.ofMembers?, hkeys, hop, hpath, hname, Option.bind_eq_bind,
      Option.bind_some, Option.getD_some, Option.pure_def]
  rw [← PatchStep.perform?_replace, run?, List.foldlM_cons, hstep, Option.bind_some]
  simp only [List.foldlM_nil, bind_pure]

end Running

section Text

variable {pointer value : Bytes} {fuel : Nat}

/-- The last member of the operation and the brackets that close it and the patch. -/
def lastMember (value : Bytes) : Bytes :=
  quote (Bytes.ofString "value") ++ (Layout.compact.colon ++ (value ++ [125, 93]))

def allMembers (pointer value : Bytes) : Bytes :=
  quote (Bytes.ofString "op") ++ (Layout.compact.colon ++ (quote (Bytes.ofString "replace") ++ 44 ::
    (quote (Bytes.ofString "path") ++ (Layout.compact.colon ++ (34 :: (pointer ++ 34 :: 44 ::
      lastMember value))))))

theorem replacementText_eq (pointer value : Bytes) :
    replacementText pointer value = 91 :: 123 :: allMembers pointer value := by
  have hfront : Bytes.ofString "[\x7b\"op\":\"replace\",\"path\":\"" =
      91 :: 123 :: (quote (Bytes.ofString "op") ++ (Layout.compact.colon ++
        (quote (Bytes.ofString "replace") ++ 44 :: (quote (Bytes.ofString "path") ++
          (Layout.compact.colon ++ [34]))))) := by decide
  have hmiddle : Bytes.ofString "\",\"value\":" =
      34 :: 44 :: (quote (Bytes.ofString "value") ++ Layout.compact.colon) := by decide
  have hend : Bytes.ofString "\x7d]" = [125, 93] := by decide
  rw [replacementText, hfront, hmiddle, hend, allMembers, lastMember]
  simp only [List.append_assoc, List.cons_append, List.nil_append]

theorem length_replacementText (pointer value : Bytes) :
    (replacementText pointer value).length = pointer.length + value.length + 37 := by
  have hfront : (Bytes.ofString "[\x7b\"op\":\"replace\",\"path\":\"").length = 25 := by decide
  have hmiddle : (Bytes.ofString "\",\"value\":").length = 10 := by decide
  have hend : (Bytes.ofString "\x7d]").length = 2 := by decide
  simp only [replacementText, List.length_append, hfront, hmiddle, hend]
  omega

theorem parseValue_plain {b : Bytes} (hb : ∀ c ∈ b, IsPlain c ∧ c < 0x80) (depth : Nat)
    (rest : Bytes) :
    parseValue .text (fuel + 1) depth (34 :: (b ++ 34 :: rest)) = some (.string b, rest) := by
  have hbody : stringBody (b ++ 34 :: rest) = some (⟨b, b⟩, rest) := by
    rw [stringBody_plains fun c hc => (hb c hc).1]
    simp [stringBody, Lexeme.after]
  have htext : Keep.text ⟨b, b⟩ = b := by
    have hmend := Utf8.mend_ofChars (Utf8.chars b)
    rwa [Utf8.ofChars_chars (Utf8.isValid_ascii fun c hc => (hb c hc).2)] at hmend
  rw [parseValue, skipBlank_cons rfl]
  simp only [hbody, Option.map_some, htext]

theorem parseMembers_next {k tail more next : Bytes} {v : JsonValue} {depth : Nat}
    (hk : Utf8.isValid k = true) (hvalue : parseValue .text fuel depth more = some (v, tail))
    (htail : skipBlank tail = 44 :: next) :
    parseMembers .text (fuel + 1) depth (quote k ++ (Layout.compact.colon ++ more)) =
      (parseMembers .text fuel depth next).map (Prod.map ((k, v) :: ·) id) := by
  cases hmore : parseMembers .text fuel depth next with
  | none => exact parseMembers_more_eq_none hk hvalue htail hmore
  | some read => exact parseMembers_more hk hvalue htail hmore

/-- The operation is what its last member is, after the two before it. -/
theorem parseValue_operation (hpointer : ∀ c ∈ pointer, IsPlain c ∧ c < 0x80) :
    parseValue .text (fuel + 4) 1 (123 :: allMembers pointer value) =
      (parseMembers .text (fuel + 1) 2 (lastMember value)).map
        (Prod.map (fun ms => .object ((Bytes.ofString "op", .string (Bytes.ofString "replace")) ::
          (Bytes.ofString "path", .string pointer) :: ms)) id) := by
  -- the object takes a step of fuel, and so does each of the two members before the last one
  have hfirst : ∃ rest, allMembers pointer value = 34 :: rest := ⟨_, rfl⟩
  obtain ⟨rest, hrest⟩ := hfirst
  have hskip : skipBlank (allMembers pointer value) = allMembers pointer value := by
    rw [hrest, skipBlank_cons rfl]
  have hhead : (allMembers pointer value).head? ≠ some 125 := by
    rw [hrest]
    simp
  have hop : parseMembers .text (fuel + 3) 2 (allMembers pointer value) =
      (parseMembers .text (fuel + 2) 2 (quote (Bytes.ofString "path") ++ (Layout.compact.colon ++
        (34 :: (pointer ++ 34 :: 44 :: lastMember value))))).map
        (Prod.map ((Bytes.ofString "op", .string (Bytes.ofString "replace")) :: ·) id) :=
    parseMembers_next (by decide) (parseValue_string (by decide)) (skipBlank_cons rfl _)
  rw [parseValue_object (by decide) hskip hhead, hop,
    parseMembers_next (by decide) (parseValue_plain hpointer 2 _) (skipBlank_cons rfl _),
    Option.map_map, Option.map_map]
  rfl

theorem parse?_replacementText
    (hfuel : 2 * (replacementText pointer value).length + 2 = fuel + 6) :
    JsonValue.parse? (replacementText pointer value) =
      (parseItems .text (fuel + 5) 1 (123 :: allMembers pointer value)).bind fun read =>
        if skipBlank read.2 = [] then some (.array read.1) else none := by
  have hskip : skipBlank (123 :: allMembers pointer value) = 123 :: allMembers pointer value :=
    skipBlank_cons rfl _
  rw [JsonValue.parse?, parseWith?, hfuel, replacementText_eq,
    parseValue_array (by decide) hskip (by simp)]
  cases parseItems .text (fuel + 5) 1 (123 :: allMembers pointer value) <;> rfl

theorem parse?_replacementText_eq_some (hpointer : ∀ c ∈ pointer, IsPlain c ∧ c < 0x80)
    {v : JsonValue} {tail : Bytes}
    (hfuel : 2 * (replacementText pointer value).length + 2 = fuel + 6)
    (hvalue : parseValue .text fuel 2 (value ++ [125, 93]) = some (v, tail))
    (htail : skipBlank tail = [125, 93]) :
    JsonValue.parse? (replacementText pointer value) = some (replacement pointer v) := by
  have hlast : parseMembers .text (fuel + 1) 2 (lastMember value) =
      some ([(Bytes.ofString "value", v)], [93]) := parseMembers_last (by decide) hvalue htail
  have hoperation : parseValue .text (fuel + 4) 1 (123 :: allMembers pointer value) =
      some (.object (replaceMembers (Bytes.ofString "replace") pointer v), [93]) := by
    rw [parseValue_operation hpointer, hlast]
    rfl
  rw [parse?_replacementText hfuel, parseItems_last hoperation (skipBlank_cons rfl [])]
  rfl

theorem parse?_replacementText_eq_none (hpointer : ∀ c ∈ pointer, IsPlain c ∧ c < 0x80)
    (hfuel : 2 * (replacementText pointer value).length + 2 = fuel + 6)
    (hvalue : parseValue .text fuel 2 (value ++ [125, 93]) = none) :
    JsonValue.parse? (replacementText pointer value) = none := by
  have hlast : parseMembers .text (fuel + 1) 2 (lastMember value) = none :=
    parseMembers_eq_none (by decide) hvalue
  have hoperation : parseValue .text (fuel + 4) 1 (123 :: allMembers pointer value) = none := by
    rw [parseValue_operation hpointer, hlast]
    rfl
  rw [parse?_replacementText hfuel, parseItems_eq_none hoperation]
  rfl

end Text

end Arbor.Patch
