import Arbor.Json.Patch
import Arbor.Proofs.Json.Written

/-! A value can be put at a pointer exactly if the pointer leads somewhere. -/
namespace Arbor

namespace JsonValue

section Keys

/-- A document with a value put in the place at the end of some keys, if they lead there. -/
def putAt? (v : JsonValue) (keys : List Bytes) (doc : JsonValue) : Option JsonValue :=
  doc.modify? (fun _ => some v) keys

theorem putAt?_cons (v : JsonValue) (key : Bytes) (keys : List Bytes) (doc : JsonValue) :
    putAt? v (key :: keys) doc =
      (doc.get? key).bind fun below => (putAt? v keys below).bind fun w => doc.set? key w := rfl

theorem at?_append (keys more : List Bytes) (doc : JsonValue) :
    doc.at? (keys ++ more) = (doc.at? keys).bind fun below => below.at? more := by
  induction keys generalizing doc with
  | nil => rfl
  | cons key keys ih =>
      rw [List.cons_append, at?, at?, Option.bind_assoc]
      exact Option.bind_congr fun below _ => ih below

theorem lt_of_place? {length i : Nat} {key : Bytes} (h : place? length key = some i) :
    i < length := by
  simp only [place?, Option.bind_eq_bind, Option.bind_eq_some_iff] at h
  obtain ⟨v, -, h⟩ := h
  generalize (if v.toInt < 0 then v.toInt + length else v.toInt) = n at h
  obtain ⟨⟨hlow, hhigh⟩, heq⟩ := Option.ite_none_right_eq_some.mp h
  cases heq
  omega

/-- What has no value under a key takes none. -/
theorem set?_eq_none {doc : JsonValue} {key : Bytes} (h : doc.get? key = none) (v : JsonValue) :
    doc.set? key v = none := by
  cases doc with
  | object ms => cases h
  | array vs =>
      rw [get?] at h
      cases hplace : place? vs.length key with
      | none => rw [set?, hplace, Option.map_none]
      | some i =>
          rw [hplace, Option.bind_some, List.getElem?_eq_none_iff] at h
          exact absurd (lt_of_place? hplace) (Nat.not_lt.mpr h)
  | _ => rfl

/-- Setting the last key below the others is putting a value at the end of them all. -/
theorem modify?_set? (key : Bytes) (v : JsonValue) (keys : List Bytes) (doc : JsonValue) :
    doc.modify? (fun below => below.set? key v) keys = putAt? v (keys ++ [key]) doc := by
  induction keys generalizing doc with
  | nil =>
      rw [List.nil_append, putAt?_cons, modify?]
      cases h : doc.get? key with
      | none => exact set?_eq_none h v
      | some below => rfl
  | cons k keys ih =>
      rw [List.cons_append, putAt?_cons, modify?]
      simp only [ih, Option.bind_eq_bind]

end Keys

section Resolving

theorem member?_map (key : Bytes) (f : JsonValue → JsonValue) (ms : List Member) :
    member? key (ms.map (Prod.map id f)) = (member? key ms).map f := by
  rw [member?, ← List.map_reverse, List.find?_map, Option.map_map, member?, Option.map_map]
  rfl

theorem putMember_map (key : Bytes) (v : JsonValue) (f : JsonValue → JsonValue)
    (ms : List Member) :
    putMember key (f v) (ms.map (Prod.map id f)) = (putMember key v ms).map (Prod.map id f) := by
  induction ms with
  | nil => rfl
  | cons m ms ih =>
      obtain ⟨k, w⟩ := m
      rw [List.map_cons, Prod.map_apply, id_eq, putMember, putMember]
      cases compareBytes key k with
      | lt => rfl
      | eq => rfl
      | gt =>
        simp only [ih]
        rfl

theorem ordered_map (f : JsonValue → JsonValue) (ms : List Member) :
    ordered (ms.map (Prod.map id f)) = (ordered ms).map (Prod.map id f) := by
  have hfold : ∀ acc : List Member,
      (ms.map (Prod.map id f)).foldl (fun acc m => putMember m.1 m.2 acc)
        (acc.map (Prod.map id f)) =
      (ms.foldl (fun acc m => putMember m.1 m.2 acc) acc).map (Prod.map id f) := by
    induction ms with
    | nil => exact fun acc => rfl
    | cons m ms ih =>
        intro acc
        rw [List.map_cons, List.foldl_cons, List.foldl_cons, Prod.map_fst, Prod.map_snd, id_eq,
          putMember_map, ih]
  exact hfold []

theorem get?_resolve (key : Bytes) (v : JsonValue) :
    v.resolve.get? key = (v.get? key).map resolve := by
  cases v with
  | array vs =>
      rw [resolve, get?, get?, resolveAll_eq_map, List.length_map, Option.map_bind]
      exact Option.bind_congr fun i _ => List.getElem?_map
  | object ms =>
      rw [resolve, get?, get?, resolveMembers_eq_map, member?_map]
      cases member? key ms <;> rfl
  | _ => rfl

theorem set?_resolve (key : Bytes) (v doc : JsonValue) :
    doc.resolve.set? key v.resolve = (doc.set? key v).map resolve := by
  cases doc with
  | array vs =>
      rw [resolve, set?, set?, resolveAll_eq_map, List.length_map, Option.map_map]
      refine Option.map_congr fun i _ => ?_
      rw [Function.comp_apply, resolve, resolveAll_eq_map, List.map_set]
  | object ms =>
      rw [resolve, set?, set?, resolveMembers_eq_map, ordered_map, putMember_map, Option.map_some,
        resolve, resolveMembers_eq_map]
  | _ => rfl

/-- Strings may be resolved before a value is put in its place or after that. -/
theorem putAt?_resolve (v : JsonValue) (keys : List Bytes) (doc : JsonValue) :
    putAt? v.resolve keys doc.resolve = (putAt? v keys doc).map resolve := by
  induction keys generalizing doc with
  | nil => rfl
  | cons key keys ih =>
      rw [putAt?_cons, putAt?_cons, get?_resolve]
      cases doc.get? key with
      | none => rfl
      | some below =>
          rw [Option.map_some, Option.bind_some, Option.bind_some, ih]
          cases putAt? v keys below with
          | none => rfl
          | some w => exact set?_resolve key w doc

mutual

theorem nesting_resolve : ∀ v : JsonValue, v.resolve.nesting = v.nesting
  | null => rfl
  | bool _ => rfl
  | number _ => rfl
  | string _ => rfl
  | array vs => congrArg (· + 1) (nestingAll_resolveAll vs)
  | object ms => congrArg (· + 1) (nestingMembers_resolveMembers ms)

theorem nestingAll_resolveAll : ∀ vs : List JsonValue, nestingAll (resolveAll vs) = nestingAll vs
  | [] => rfl
  | v :: vs => congrArg₂ max (nesting_resolve v) (nestingAll_resolveAll vs)

theorem nestingMembers_resolveMembers :
    ∀ ms : List Member, nestingMembers (resolveMembers ms) = nestingMembers ms
  | [] => rfl
  | (_, v) :: ms => congrArg₂ max (nesting_resolve v) (nestingMembers_resolveMembers ms)

end

end Resolving

end JsonValue

section Pointers

namespace Bytes

theorem split_of_notMem {sep : UInt8} {b : Bytes} (h : sep ∉ b) : split sep b = [b] := by
  induction b with
  | nil => rfl
  | cons c b ih =>
      obtain ⟨hc, hb⟩ := not_or.mp (mt List.mem_cons.mpr h)
      rw [split, if_neg (Ne.symm hc), ih hb]

theorem split_append {sep : UInt8} {b : Bytes} (h : sep ∉ b) (rest : Bytes) :
    split sep (b ++ sep :: rest) = b :: split sep rest := by
  induction b with
  | nil =>
    rw [List.nil_append, split, if_pos rfl]
  | cons c b ih =>
      obtain ⟨hc, hb⟩ := not_or.mp (mt List.mem_cons.mpr h)
      rw [List.cons_append, split, if_neg (Ne.symm hc), ih hb]

/-- Parts that each follow a separator are what the text is split into. -/
theorem split_flatMap {sep : UInt8} {parts : List Bytes} (h : ∀ part ∈ parts, sep ∉ part) :
    split sep (parts.flatMap (sep :: ·)) = [] :: parts := by
  have hfirst : ∀ first : Bytes, sep ∉ first →
      split sep (first ++ parts.flatMap (sep :: ·)) = first :: parts := by
    induction parts with
    | nil =>
        intro first hfirst
        rw [List.flatMap_nil, List.append_nil, split_of_notMem hfirst]
    | cons part parts ih =>
        intro first hfirst
        obtain ⟨hpart, hparts⟩ := List.forall_mem_cons.mp h
        rw [List.flatMap_cons, List.cons_append, split_append hfirst, ih hparts part hpart]
  exact hfirst [] List.not_mem_nil

end Bytes

namespace Pointer

def keys (p : Pointer) : List Bytes := p.parents ++ [p.key]

def IsPlain (key : Bytes) : Prop := 47 ∉ key ∧ 126 ∉ key

theorem unescape_eq {key : Bytes} (h : 126 ∉ key) : unescape key = key := by
  induction key with
  | nil => rfl
  | cons c key ih =>
      obtain ⟨hc, hkey⟩ := not_or.mp (mt List.mem_cons.mpr h)
      rw [unescape, ih hkey]
      · rintro rest rfl
        exact absurd rfl hc
      · rintro rest rfl
        exact absurd rfl hc

/-- Keys without slashes and tildes are read back from the text of their pointer. -/
theorem exists_ofText? {keys : List Bytes} (hne : keys ≠ []) (hplain : ∀ key ∈ keys, IsPlain key) :
    ∃ p, ofText? (keys.flatMap (47 :: ·)) = some p ∧ p.keys = keys := by
  have hunescape : keys.map unescape = keys :=
    (List.map_congr_left fun key hkey => unescape_eq (hplain key hkey).2).trans keys.map_id
  have hsplit : Bytes.split 47 (keys.flatMap (47 :: ·)) = [] :: keys :=
    Bytes.split_flatMap fun key hkey => (hplain key hkey).1
  rw [ofText?, hsplit, List.tail_cons, hunescape]
  cases keys with
  | nil => exact absurd rfl hne
  | cons key more =>
      refine ⟨_, rfl, ?_⟩
      refine List.dropLast_append_getLast? _ ?_
      rw [List.getLastD_eq_getLast?, List.getLast?_cons]
      rfl

end Pointer

namespace PatchStep

open JsonValue

theorem perform?_replace (p : Pointer) (v doc : JsonValue) :
    perform? doc (.replace p v) = putAt? v p.keys doc :=
  modify?_set? p.key v p.parents doc

theorem valueAt?_eq (p : Pointer) (doc : JsonValue) : valueAt? p doc = doc.at? p.keys := by
  rw [valueAt?, Pointer.keys, at?_append]
  refine Option.bind_congr fun below _ => ?_
  rw [at?]
  cases below.get? p.key <;> rfl

end PatchStep

end Pointers

end Arbor
