import Arbor.Diff.Change
import Arbor.Proofs.Codec.Json
import Arbor.Proofs.Json.Patch
import Arbor.Proofs.Tree.Subtree

/-! Another value at a path of the JSON form is read as the tree with another subtree there. -/
namespace Arbor

/-- The keys on the way to a node in the JSON form of a tree. -/
def Path.keys (p : Path) : List Bytes :=
  p.flatMap fun i => [Bytes.ofString Field.children.name, Bytes.ofNat i]

theorem Path.keys_cons (i : Nat) (p : Path) :
    Path.keys (i :: p) = Bytes.ofString Field.children.name :: Bytes.ofNat i :: p.keys := rfl

namespace JsonValue

theorem place?_ofNat {i : Nat} (hi : i < 2 ^ 63) (length : Nat) :
    place? length (Bytes.ofNat i) = if i < length then some i else none := by
  have hread : Reading.integer? (Bytes.ofNat i) = some (Int64.ofNat i) := by
    have hint := Reading.integer?_ofInt (Int64.ofNat i)
    rwa [Int64.toInt_ofNat_of_lt hi] at hint
  have hsign : ¬ (i : Int) < 0 := by omega
  simp only [place?, hread, Option.bind_eq_bind, Option.bind_some, Int64.toInt_ofNat_of_lt hi,
    if_neg hsign, Int.natCast_nonneg, true_and, Int.ofNat_lt, Int.toNat_natCast]

theorem get?_array {i : Nat} (hi : i < 2 ^ 63) (vs : List JsonValue) :
    (array vs).get? (Bytes.ofNat i) = vs[i]? := by
  rw [get?, place?_ofNat hi]
  split
  next => rfl
  next hlt => exact (List.getElem?_eq_none_iff.mpr (Nat.not_lt.mp hlt)).symm

theorem set?_array {i : Nat} (hi : i < 2 ^ 63) {vs : List JsonValue} (hlt : i < vs.length)
    (v : JsonValue) : (array vs).set? (Bytes.ofNat i) v = some (array (vs.set i v)) := by
  rw [set?, place?_ofNat hi, if_pos hlt]
  rfl

theorem member?_concat (key : Bytes) (v : JsonValue) (ms : List Member) :
    member? key (ms ++ [(key, v)]) = some v := by
  simp [member?]

end JsonValue

namespace Record

open JsonValue

/-- A value that is read as a tree and nested as deeply as the form of the tree is. -/
structure Renders (v : JsonValue) (t : Tree) : Prop where
  read : ReadsAs v t
  nesting : v.nesting + 1 = 2 * t.levels

theorem renders_toJson {t : Tree} (ht : t.Complete)
    (hfinite : t.EachHead fun h => h.payload.float.isFinite = true) :
    Renders (ofTree t).toJson t :=
  ⟨readsAs_toJson ht hfinite, nesting_toJson ht⟩

theorem renders_modify {vs : List JsonValue} {cs : List Tree} (h : List.Forall₂ Renders vs cs)
    {i : Nat} {c : Tree} {v : JsonValue} {f : Tree → Tree} (hc : cs[i]? = some c)
    (hv : Renders v (f c)) : List.Forall₂ Renders (vs.set i v) (cs.modify i f) := by
  induction h generalizing i with
  | nil => cases hc
  | @cons w d vs cs hw htail ih =>
      cases i with
      | zero =>
          cases hc
          exact .cons hv htail
      | succ i => exact .cons hw (ih hc)

section Members

/-- The members of the object of a node with children, in the order of their keys. -/
def orderedMembers (kind : Bytes) (p : Payload) (vs : List JsonValue) : List Member :=
  member .bool p.bool (.bool true) ++
    (Bytes.ofString Field.children.name, .array vs) ::
    (member .float (!p.float.isZero) (.number p.float.jsonText) ++
    (member .int (p.int ≠ 0) (.number (Bytes.ofInt p.int.toInt)) ++
    (Bytes.ofString Field.kind.name, .string kind) ::
    member .str (p.str ≠ []) (.string p.str)))

variable {kind : Bytes} {p : Payload} {vs ws : List JsonValue}

/-- Exchanging the children of a node puts its members in order. -/
theorem putMember_children (hvs : vs ≠ []) (ws : List JsonValue) :
    putMember (Bytes.ofString Field.children.name) (.array ws) (ordered (members kind p vs)) =
      orderedMembers kind p ws := by
  unfold members orderedMembers
  generalize decide (p.int ≠ 0) = int
  generalize (!p.float.isZero) = float
  generalize p.bool = bool
  generalize decide (p.str ≠ []) = str
  rw [decide_eq_true hvs]
  cases int <;> cases float <;> cases bool <;> cases str <;> rfl

theorem get?_children (hvs : vs ≠ []) :
    (object (members kind p vs)).get? (Bytes.ofString Field.children.name) =
      some (.array vs) := by
  have hlast : ∀ v, member .children (vs ≠ []) v =
      [(Bytes.ofString Field.children.name, v)] := by
    intro v
    rw [decide_eq_true hvs]
    rfl
  rw [members, hlast]
  simp only [← List.append_assoc, ← List.cons_append]
  rw [get?, member?_concat]
  rfl

theorem setMembers_array {k : Bytes} {ms : List Member} {rs : List Record}
    (hvs : setItems [] vs = some rs) :
    setMembers (.node k p []) ((Bytes.ofString Field.children.name, .array vs) :: ms) =
      setMembers (.node k p rs) ms := by
  simp only [setMembers, ofMapped?_name, children, hvs, Option.bind_some, setChildren]

/-- The order of its members does not matter to what a node is read as. -/
theorem setMembers_orderedMembers (hp : p.float.isFinite = true) {rs : List Record}
    (hvs : setItems [] vs = some rs) :
    setMembers blank (orderedMembers kind p vs) =
      some (.node kind { p with float := p.float.plusZero } rs) := by
  have hstr : member .str (p.str ≠ []) (.string p.str) =
      member .str (p.str ≠ []) (.string p.str) ++ [] := (List.append_nil _).symm
  rw [orderedMembers, blank, setMembers_bool rfl, setMembers_array hvs, setMembers_float rfl hp,
    setMembers_int rfl, setMembers_kind, hstr, setMembers_str rfl, setMembers]

theorem nesting_orderedMembers (kind : Bytes) (p : Payload) (vs : List JsonValue) :
    (object (orderedMembers kind p vs)).nesting = nestingAll vs + 2 := by
  simp only [orderedMembers, JsonValue.nesting, nestingMembers, nestingMembers_append,
    nestingMembers_member, ite_self]
  omega

end Members

/-- A node whose children have been exchanged is read as the node with the other children. -/
theorem renders_node {h : Head} {vs : List JsonValue} {cs : List Tree} (hne : cs ≠ [])
    (hfinite : h.payload.float.isFinite = true) (hvs : List.Forall₂ Renders vs cs) :
    Renders (.object (orderedMembers (Bytes.ofString h.kind.name) h.payload vs)) (.node h cs) := by
  have hread : List.Forall₂ ReadsAs vs cs := hvs.imp fun _ _ hv => hv.read
  have hnesting : List.Forall₂ (fun v c => v.nesting + 1 = 2 * c.levels) vs cs :=
    hvs.imp fun _ _ hv => hv.nesting
  refine ⟨⟨_, rfl, ?_⟩, ?_⟩
  · rw [setMembers_orderedMembers hfinite (setItems_of_readsAs hread), Tree.plusZero_node,
      ofTree_node, h.payload_plusZero, Head.kind_plusZero]
  · rw [nesting_orderedMembers, Tree.levels, Tree.fold_node, ← Tree.levels]
    have hall := nestingAll_eq hnesting hne
    omega

section Paths

variable {t old m : Tree} {p : Path} {w : JsonValue}

theorem map_toJson_ne_nil {cs : List Tree} (hne : cs ≠ []) :
    (cs.map ofTree).map toJson ≠ [] := by
  simpa only [ne_eq, List.map_eq_nil_iff] using hne

/-- The first key of an index leads to the array of all children. -/
theorem get?_toJson (h : Head) {cs : List Tree} (hne : cs ≠ []) :
    (ofTree (.node h cs)).toJson.get? (Bytes.ofString Field.children.name) =
      some (.array ((cs.map ofTree).map toJson)) := by
  rw [ofTree_node, toJson_node, get?_children (map_toJson_ne_nil hne)]

theorem get?_child {cs : List Tree} {i : Nat} {c : Tree} (hi : i < 2 ^ 63)
    (hc : cs[i]? = some c) :
    (array ((cs.map ofTree).map toJson)).get? (Bytes.ofNat i) = some (ofTree c).toJson := by
  rw [get?_array hi, List.map_map, List.getElem?_map, hc]
  rfl

/-- The keys of a path lead in the form of a tree to the form of the subtree at the path. -/
theorem at?_keys (hp : ∀ i ∈ p, i < 2 ^ 63) (hold : t.at? p = some old) :
    (ofTree t).toJson.at? p.keys = some (ofTree old).toJson := by
  induction p generalizing t with
  | nil =>
      cases hold
      rfl
  | cons i p ih =>
      obtain ⟨hi, hp⟩ := List.forall_mem_cons.mp hp
      obtain ⟨c, hc, hbelow⟩ := Tree.at?_cons_eq_some_iff.mp hold
      cases t with
      | absent => cases hc
      | node h cs =>
          rw [Tree.children] at hc
          have hchildren := get?_toJson h (List.ne_nil_of_mem (List.mem_of_getElem? hc))
          rw [Path.keys_cons, JsonValue.at?, hchildren, Option.bind_some, JsonValue.at?,
            get?_child hi hc, Option.bind_some, ih hp hbelow]

/-- A value put at the keys of a path in the form of a tree makes it read as the tree with another
subtree at the path, the one that the value is read as. -/
theorem exists_putAt?_keys (ht : t.Complete)
    (hfinite : t.EachHead fun h => h.payload.float.isFinite = true) (hw : Renders w m)
    (hp : ∀ i ∈ p, i < 2 ^ 63) (hold : t.at? p = some old) :
    ∃ v, putAt? w p.keys (ofTree t).toJson = some v ∧ Renders v (t.replaceAt p m) := by
  -- on the way back from the node each form is only known to be read as its tree, so that, and not
  -- the form itself, is what a step keeps
  induction p generalizing t with
  | nil => exact ⟨w, rfl, hw⟩
  | cons i p ih =>
      obtain ⟨hi, hp⟩ := List.forall_mem_cons.mp hp
      obtain ⟨c, hc, hbelow⟩ := Tree.at?_cons_eq_some_iff.mp hold
      cases t with
      | absent => cases hc
      | node h cs =>
          rw [Tree.children] at hc
          have hmem := List.mem_of_getElem? hc
          have hne := List.ne_nil_of_mem hmem
          obtain ⟨hh, hcs⟩ := Tree.eachHead_node_iff.mp hfinite
          obtain ⟨v, hv, hrenders⟩ := ih (ht.children c hmem) (hcs c hmem) hp hbelow
          have hlt : i < ((cs.map ofTree).map toJson).length := by
            rw [List.length_map, List.length_map]
            exact (List.getElem?_eq_some_iff.mp hc).1
          have hput : putAt? w (Path.keys (i :: p)) (ofTree (.node h cs)).toJson =
              some (.object (orderedMembers (Bytes.ofString h.kind.name) h.payload
                (((cs.map ofTree).map toJson).set i v))) := by
            rw [Path.keys_cons, putAt?_cons, get?_toJson h hne, Option.bind_some, putAt?_cons,
              get?_child hi hc, Option.bind_some, hv, Option.bind_some, set?_array hi hlt,
              Option.bind_some, ofTree_node, toJson_node, set?,
              putMember_children (map_toJson_ne_nil hne)]
          have hmodified := renders_modify (f := fun c => c.replaceAt p m)
            (forall₂_toJson fun c hc => renders_toJson (ht.children c hc) (hcs c hc)) hc hrenders
          have hne' : cs.modify i (fun c => c.replaceAt p m) ≠ [] := by
            rwa [ne_eq, List.modify_eq_nil_iff]
          exact ⟨_, hput, renders_node hne' hh hmodified⟩

end Paths

end Record

end Arbor
