import Arbor.Proofs.Codec.ProtoFields
import Mathlib.Logic.Relation

/-! Fields of a message may be moved, added and dropped in many ways, at any level. -/
namespace Arbor

namespace Wire

variable {nest : Nat}

def WireField.IsChild (f : WireField nest) (message : Bytes) : Prop :=
  f.number = Field.children.number ∧ ∃ tag value, IsTag Field.children.number .bytes tag ∧
    IsCounted message value ∧ f.bytes = tag ++ value

def WireField.IsReadable (f : WireField nest) (field : Field) : Prop :=
  f.number = field.number ∧ ∃ tag value item, IsTag field.number field.wireType tag ∧
    Codec.IsScalar field value item ∧ f.bytes = tag ++ value

/-- A message after one edit. At most `nest` groups are inside each other. -/
inductive Edited (nest : Nat) : Bytes → Bytes → Prop
  /-- Fields in another order, those with one number in the same. -/
  | reorder {fs gs : List (WireField nest)} :
      (∀ n, gs.filter (·.number = n) = fs.filter (·.number = n)) → Edited nest (join fs) (join gs)
  /-- A field with an unknown number anywhere. -/
  | insert (before after : List (WireField nest)) {f : WireField nest} :
      Field.children.number < f.number →
      Edited nest (join (before ++ after)) (join (before ++ f :: after))
  /-- A scalar field that is followed by another one with its number is dropped. -/
  | drop (before between after : List (WireField nest)) {f g : WireField nest} {field : Field} :
      field ≠ .children → f.number = field.number → g.number = field.number →
      Edited nest (join (before ++ f :: (between ++ g :: after)))
        (join (before ++ (between ++ g :: after)))
  /-- A scalar field is put in front of another one with its number. -/
  | precede (before between after : List (WireField nest)) {f g : WireField nest} {field : Field} :
      f.IsReadable field → g.number = field.number →
      Edited nest (join (before ++ (between ++ g :: after)))
        (join (before ++ f :: (between ++ g :: after)))
  /-- The message of a child is edited, its tag and its length are written anew. -/
  | child (before after : List (WireField nest)) {f g : WireField nest} {m m' : Bytes} :
      f.IsChild m → g.IsChild m' → Edited nest m m' →
      Edited nest (join (before ++ f :: after)) (join (before ++ g :: after))

end Wire

namespace Codec

open Wire

namespace Item

def field? : Item → Option Field
  | kind _ => some .kind
  | int _ => some .int
  | float _ => some .float
  | bool _ => some .bool
  | str _ => some .str
  | child _ => some .children
  | other => none

end Item

section Drafts

variable {limit : Int} {depth : Nat} {i j : Item} {f : Field}

theorem Tells.field?_eq {number : Nat} {b : Bytes} (h : Tells limit depth number b i) :
    Field.ofNumber? number = i.field? := by
  cases h with
  | scalar _ hvalue =>
      rw [Field.ofNumber?_number]
      cases hvalue <;> rfl
  | child _ _ _ => exact Field.ofNumber?_number _
  | other hnone _ _ => exact hnone

/-- Items of different fields may be taken in either order. -/
theorem Draft.take_comm (h : ∀ f, i.field? = some f → j.field? ≠ some f) (d : Draft) :
    (d.take i).take j = (d.take j).take i := by
  cases i <;> cases j <;> first | rfl | exact absurd rfl (h _ rfl)

/-- The last of two items of a scalar field wins. -/
theorem Draft.take_take (hf : f ≠ .children) (hi : i.field? = some f) (hj : j.field? = some f)
    (d : Draft) : (d.take i).take j = d.take j := by
  cases i <;> cases hi <;> cases j <;> cases hj <;> first | rfl | exact absurd rfl hf

/-- Two drafts that no later item of a field tells apart. -/
def EqualBeside (f : Field) (d e : Draft) : Prop :=
  ∀ i : Item, i.field? = some f → d.take i = e.take i

theorem EqualBeside.take {d e : Draft} (h : EqualBeside f d e) (j : Item) :
    EqualBeside f (d.take j) (e.take j) := by
  intro i hi
  by_cases hj : j.field? = some f
  · rw [h j hj]
  · have hne : ∀ g, j.field? = some g → i.field? ≠ some g := by
      rintro g hg hig
      exact hj (hg.trans (hig.symm.trans hi))
    rw [Draft.take_comm hne, Draft.take_comm hne, h i hi]

theorem EqualBeside.draftOf {d e : Draft} (h : EqualBeside f d e)
    (ps : List (ReadField limit depth)) : EqualBeside f (draftOf d ps) (draftOf e ps) := by
  induction ps generalizing d e with
  | nil => exact h
  | cons p ps ih => exact ih (h.take p.item)

theorem draftOf_append (d : Draft) (ps qs : List (ReadField limit depth)) :
    draftOf d (ps ++ qs) = draftOf (draftOf d ps) qs := List.foldl_append

theorem draftOf_cons (d : Draft) (p : ReadField limit depth) (ps : List (ReadField limit depth)) :
    draftOf d (p :: ps) = draftOf (d.take p.item) ps := rfl

/-- A scalar item counts for nothing if one of its field follows. -/
theorem draftOf_overwrite (hf : f ≠ .children) {p q : ReadField limit depth}
    (hp : p.item.field? = some f) (hq : q.item.field? = some f)
    (before between after : List (ReadField limit depth)) (d : Draft) :
    draftOf d (before ++ p :: (between ++ q :: after)) =
      draftOf d (before ++ (between ++ q :: after)) := by
  have hequal : EqualBeside f ((draftOf d before).take p.item) (draftOf d before) :=
    fun i hi => Draft.take_take hf hp hi _
  have hlast := hequal.draftOf between q.item hq
  simp only [draftOf_append, draftOf_cons, hlast]

theorem draftOf_take_comm {p : ReadField limit depth} {qs : List (ReadField limit depth)}
    (hqs : ∀ q ∈ qs, q.field.number ≠ p.field.number) (d : Draft) :
    draftOf (d.take p.item) qs = (draftOf d qs).take p.item := by
  induction qs generalizing d with
  | nil => rfl
  | cons q qs ih =>
      have hne : ∀ f, p.item.field? = some f → q.item.field? ≠ some f := by
        intro f hp hq
        rw [← p.tells.field?_eq] at hp
        rw [← q.tells.field?_eq] at hq
        exact hqs q List.mem_cons_self
          ((Field.number_of_ofNumber? hq).symm.trans (Field.number_of_ofNumber? hp))
      rw [draftOf_cons, draftOf_cons, Draft.take_comm hne]
      exact ih (fun r hr => hqs r (List.mem_cons_of_mem q hr)) (d.take q.item)

/-- Fields that are reordered, but not among those with one number, make the same draft. -/
theorem exists_reordered {ps : List (ReadField limit depth)}
    {gs : List (WireField (maxGroups + 1))}
    (h : ∀ n, gs.filter (·.number = n) = (ps.map ReadField.field).filter (·.number = n)) :
    ∃ qs : List (ReadField limit depth), qs.map ReadField.field = gs ∧
      ∀ d, draftOf d qs = draftOf d ps := by
  induction ps generalizing gs with
  | nil =>
      have hgs : gs = [] := by
        rw [List.eq_nil_iff_forall_not_mem]
        intro g hg
        have hmem : g ∈ gs.filter (·.number = g.number) := by simp [hg]
        rw [h g.number] at hmem
        cases hmem
      exact ⟨[], hgs.symm, fun _ => rfl⟩
  | cons p ps ih =>
      -- the first field with this number in the other order is the first one here
      have hfirst := h p.field.number
      rw [List.map_cons, List.filter_cons_of_pos (by simp), List.filter_eq_cons_iff] at hfirst
      obtain ⟨front, back, rfl, hfront, -, hback⟩ := hfirst
      have hrest : ∀ n, (front ++ back).filter (·.number = n) =
          (ps.map ReadField.field).filter (·.number = n) := by
        intro n
        by_cases hn : n = p.field.number
        · subst hn
          rw [List.filter_append, List.filter_eq_nil_iff.mpr hfront, List.nil_append, hback]
        · have hskip := h n
          rw [List.map_cons, List.filter_append, List.filter_cons_of_neg (by simp [Ne.symm hn]),
            List.filter_cons_of_neg (by simp [Ne.symm hn])] at hskip
          rw [List.filter_append, hskip]
      obtain ⟨qs, hqs, hdraft⟩ := ih hrest
      obtain ⟨front', back', rfl, rfl, rfl⟩ := List.map_eq_append_iff.mp hqs
      refine ⟨front' ++ p :: back', by simp, ?_⟩
      intro d
      have hmoved : draftOf (d.take p.item) front' = (draftOf d front').take p.item :=
        draftOf_take_comm (fun q hq => by simpa using hfront q.field (List.mem_map_of_mem hq)) d
      rw [draftOf_append, draftOf_cons, draftOf_cons, ← hdraft, draftOf_append, hmoved]

end Drafts

section Edits

variable {limit : Int} {depth : Nat} {b b' : Bytes} {t : Tree}

/-- A message that is given by its fields is read field by field. -/
theorem exists_reading {fs : List (WireField (maxGroups + 1))}
    (h : Denotes limit depth (join fs) t) : Tree.checkDepth limit depth = .ok () ∧
      ∃ ps : List (ReadField limit depth), ps.map ReadField.field = fs ∧
        (draftOf {} ps).tree = .ok t := by
  obtain ⟨hdepth, ps, hbytes, ht⟩ := denotes_iff.mp h
  exact ⟨hdepth, ps, join_inj hbytes, ht⟩

theorem denotes_of_reading {fs : List (WireField (maxGroups + 1))}
    (hdepth : Tree.checkDepth limit depth = .ok ()) (ps : List (ReadField limit depth))
    (hps : ps.map ReadField.field = fs) (ht : (draftOf {} ps).tree = .ok t) :
    Denotes limit depth (join fs) t := hps ▸ denotes_of_fields hdepth ht

theorem ofNumber?_eq_none {number : Nat} (h : Field.children.number < number) :
    Field.ofNumber? number = none := by
  cases hfield : Field.ofNumber? number with
  | none => rfl
  | some f =>
      have hnumber := Field.number_of_ofNumber? hfield
      have hle : f.number ≤ Field.children.number := by
        cases f <;> decide
      omega

def unknownField (limit : Int) (depth : Nat) {f : WireField (maxGroups + 1)}
    (h : Field.children.number < f.number) : ReadField limit depth where
  field := f
  item := .other
  tells := by
    obtain ⟨number, bytes, type, tag, value, htag, hvalue, rfl⟩ := f
    exact .other (ofNumber?_eq_none h) htag hvalue

theorem ReadField.field?_eq {p : ReadField limit depth} {f : Field}
    (h : p.field.number = f.number) : p.item.field? = some f := by
  rw [← p.tells.field?_eq, h, f.ofNumber?_number]

theorem exists_readField (limit : Int) (depth : Nat) {f : WireField (maxGroups + 1)}
    {field : Field} (h : f.IsReadable field) : ∃ p : ReadField limit depth, p.field = f := by
  obtain ⟨hnumber, tag, value, item, htag, hvalue, hbytes⟩ := h
  have htells : Tells limit depth f.number f.bytes item := by
    rw [hnumber, hbytes]
    exact .scalar htag hvalue
  exact ⟨⟨f, item, htells⟩, rfl⟩

theorem ReadField.exists_child {p : ReadField limit depth} {m : Bytes} (h : p.field.IsChild m) :
    ∃ t, p.item = .child t ∧ Denotes limit (depth + 1) m t := by
  obtain ⟨⟨number, bytes, hfield⟩, item, htells⟩ := p
  obtain ⟨hnumber, tag, value, htag, hcounted, hbytes⟩ := h
  have hread : readTag? bytes = some (Field.children.number, .bytes, value) :=
    readTag?_eq_some_iff.mpr ⟨tag, hbytes, htag⟩
  dsimp only at hnumber htells ⊢
  cases htells with
  | scalar _ hvalue =>
      have hsame := Field.ofNumber?_number .children
      rw [← hnumber, Field.ofNumber?_number] at hsame
      exact absurd (Option.some.inj hsame) hvalue.ne_children
  | @child tag' value' m' t htag' hcounted' hm =>
      have hread' : readTag? (tag' ++ value') = some (Field.children.number, .bytes, value') :=
        readTag?_eq_some_iff.mpr ⟨tag', rfl, htag'⟩
      rw [hread'] at hread
      simp only [Option.some.injEq, Prod.mk.injEq, true_and] at hread
      have hcount := readCounted?_eq_some_iff.mpr ⟨value', (List.append_nil _).symm, hcounted'⟩
      rw [hread, readCounted?_eq_some_iff.mpr ⟨value, (List.append_nil _).symm, hcounted⟩] at hcount
      simp only [Option.some.injEq, Prod.mk.injEq, and_true] at hcount
      exact ⟨t, rfl, hcount ▸ hm⟩
  | other hnone _ _ =>
      rw [hnumber, Field.ofNumber?_number] at hnone
      cases hnone

/-- The message of a child in other bytes tells the same tree. -/
theorem exists_child_readField {f : WireField (maxGroups + 1)} {m : Bytes} (h : f.IsChild m)
    (hm : Denotes limit (depth + 1) m t) :
    ∃ p : ReadField limit depth, p.field = f ∧ p.item = .child t := by
  obtain ⟨hnumber, tag, value, htag, hcounted, hbytes⟩ := h
  have htells : Tells limit depth f.number f.bytes (.child t) := by
    rw [hnumber, hbytes]
    exact .child htag hcounted hm
  exact ⟨⟨f, .child t, htells⟩, rfl, rfl⟩

/-- One edit keeps the tree of a message at any depth. -/
theorem denotes_edit (h : Edited (maxGroups + 1) b b') (hb : Denotes limit depth b t) :
    Denotes limit depth b' t := by
  induction h generalizing depth t with
  | reorder horder =>
      obtain ⟨hdepth, ps, rfl, ht⟩ := exists_reading hb
      obtain ⟨qs, hqs, hdraft⟩ := exists_reordered horder
      exact denotes_of_reading hdepth qs hqs (by rwa [hdraft])
  | insert before after hnumber =>
      obtain ⟨hdepth, ps, hps, ht⟩ := exists_reading hb
      obtain ⟨front, back, rfl, rfl, rfl⟩ := List.map_eq_append_iff.mp hps
      refine denotes_of_reading hdepth (front ++ unknownField limit depth hnumber :: back)
        (by simp [unknownField]) ?_
      rw [draftOf_append] at ht ⊢
      exact ht
  | drop before between after hfield hf hg =>
      obtain ⟨hdepth, ps, hps, ht⟩ := exists_reading hb
      obtain ⟨front, others, rfl, rfl, hrest⟩ := List.map_eq_append_iff.mp hps
      obtain ⟨p, others, rfl, rfl, hlater⟩ := List.map_eq_cons_iff.mp hrest
      obtain ⟨middle, others, rfl, rfl, hlast⟩ := List.map_eq_append_iff.mp hlater
      obtain ⟨q, back, rfl, rfl, rfl⟩ := List.map_eq_cons_iff.mp hlast
      rw [draftOf_overwrite hfield (ReadField.field?_eq hf) (ReadField.field?_eq hg)] at ht
      exact denotes_of_reading hdepth (front ++ (middle ++ q :: back)) (by simp) ht
  | @precede before between after f g field hf hg =>
      obtain ⟨hdepth, ps, hps, ht⟩ := exists_reading hb
      obtain ⟨front, others, rfl, rfl, hrest⟩ := List.map_eq_append_iff.mp hps
      obtain ⟨middle, others, rfl, rfl, hlast⟩ := List.map_eq_append_iff.mp hrest
      obtain ⟨q, back, rfl, rfl, rfl⟩ := List.map_eq_cons_iff.mp hlast
      have hfield : field ≠ .children := by
        obtain ⟨-, tag, value, item, -, hvalue, -⟩ := hf
        exact hvalue.ne_children
      obtain ⟨p, rfl⟩ := exists_readField limit depth hf
      refine denotes_of_reading hdepth (front ++ p :: (middle ++ q :: back)) (by simp) ?_
      rwa [draftOf_overwrite hfield (ReadField.field?_eq hf.1) (ReadField.field?_eq hg)]
  | child before after hf hg hm ih =>
      obtain ⟨hdepth, ps, hps, ht⟩ := exists_reading hb
      obtain ⟨front, others, rfl, rfl, hrest⟩ := List.map_eq_append_iff.mp hps
      obtain ⟨p, back, rfl, rfl, rfl⟩ := List.map_eq_cons_iff.mp hrest
      obtain ⟨c, hitem, hc⟩ := ReadField.exists_child hf
      obtain ⟨q, rfl, hitem'⟩ := exists_child_readField hg (ih hc)
      refine denotes_of_reading hdepth (front ++ q :: back) (by simp) ?_
      rw [draftOf_append, draftOf_cons, hitem', ← hitem]
      rwa [draftOf_append, draftOf_cons] at ht

theorem denotes_edits (h : Relation.ReflTransGen (Edited (maxGroups + 1)) b b')
    (hb : Denotes limit depth b t) : Denotes limit depth b' t := by
  induction h with
  | refl => exact hb
  | tail _ hedit ih => exact denotes_edit hedit ih

end Edits

section Groups

/-- Groups of an unknown number inside each other, the innermost one empty. -/
def nestedGroups (n : Nat) : Bytes := List.replicate n 0x3B ++ List.replicate n 0x3C

theorem isGroup_nested {n nest : Nat} (h : n ≤ nest) :
    IsGroup nest 7 (List.replicate n 0x3B ++ List.replicate (n + 1) 0x3C) := by
  have hstop : IsTag 7 .endGroup [0x3C] := isTag_of_read rfl
  have hstart : IsTag 7 .startGroup [0x3B] := isTag_of_read rfl
  induction n generalizing nest with
  | zero => exact .stop hstop
  | succ n ih =>
      obtain ⟨nest, rfl⟩ : ∃ k, nest = k + 1 := ⟨nest - 1, by omega⟩
      have hend : IsGroup (nest + 1) 7 [0x3C] := .stop hstop
      have hfield := IsGroup.field hstart (.group (ih (by omega))) hend
      rw [List.replicate_succ, List.replicate_succ' (n := n + 1)]
      simpa only [List.cons_append, List.nil_append, List.append_assoc] using hfield

def groupsField {n nest : Nat} (h : n ≤ nest) : WireField (nest + 1) where
  number := 7
  bytes := nestedGroups (n + 1)
  exists_value := ⟨.startGroup, [0x3B], _, isTag_of_read rfl, .group (isGroup_nested h), rfl⟩

/-- Readers give up on groups that are nested too deeply. -/
theorem skipValue?_replicate {n level : Nat} (h : maxGroups < level + n) (fuel : Nat) (b : Bytes) :
    skipValue? fuel level 7 .startGroup (List.replicate n 0x3B ++ b) = none := by
  induction n generalizing fuel level with
  | zero =>
      cases fuel with
      | zero => rfl
      | succ fuel => rw [skipValue?, if_pos (by omega)]
  | succ n ih =>
      cases fuel with
      | zero => rfl
      | succ fuel =>
          rw [skipValue?]
          split
          · rfl
          · cases fuel with
            | zero => rfl
            | succ fuel =>
                have htag : readTag? (0x3B :: (List.replicate n 0x3B ++ b)) =
                    some (7, .startGroup, List.replicate n 0x3B ++ b) :=
                  readTag?_eq_some_iff.mpr ⟨[0x3B], rfl, isTag_of_read rfl⟩
                rw [List.replicate_succ, List.cons_append, skipGroup?, htag]
                simp [ih (show maxGroups < level + 1 + n by omega) fuel]

theorem readFields_of_not_skipped {limit : Int} {depth number : Nat} {type : WireType}
    {b rest : Bytes} (htag : readTag? b = some (number, type, rest))
    (hnumber : Field.children.number < number)
    (hskip : ∀ fuel, skipValue? fuel 0 number type rest = none) (fuel : Nat) (d : Draft) :
    readFields limit (fuel + 1) depth d b = .error .encoding := by
  rw [readFields, htag]
  · simp only [wire, bind, Except.bind, ofNumber?_eq_none hnumber, hskip]
  · rintro rfl
    cases htag

/-- A null literal, and after it more groups inside each other than readers follow. -/
theorem readProto_nestedGroups {limit : Int} (hlimit : 0 ≤ limit) {n : Nat} (hn : maxGroups < n) :
    readProto limit ([0x08, 0x05] ++ nestedGroups (n + 1)) = .error .encoding := by
  have hkind : Tells limit 0 Field.kind.number [0x08, 0x05] (.kind 5) :=
    .scalar Field.kind.isTag (.kind (isVarint_singleton (c := 5) (by decide)) (by decide))
  have hdepth : Tree.checkDepth limit 0 = .ok () := if_neg (by omega)
  have htag : readTag? (nestedGroups (n + 1)) =
      some (7, .startGroup, List.replicate n 0x3B ++ List.replicate (n + 1) 0x3C) :=
    readTag?_eq_some_iff.mpr ⟨[0x3B], rfl, isTag_of_read rfl⟩
  have hskip := fun fuel => skipValue?_replicate (show maxGroups < 0 + n by omega) fuel
    (List.replicate (n + 1) 0x3C)
  obtain ⟨fuel, hfuel⟩ : ∃ k, 2 * ([0x08, 0x05] ++ nestedGroups (n + 1)).length + 2 = k + 5 := by
    refine ⟨2 * ([0x08, 0x05] ++ nestedGroups (n + 1)).length - 3, ?_⟩
    simp only [List.length_append, List.length_cons]
    omega
  rw [readProto, hfuel, readMessage, hdepth, hkind.read (by simp),
    readFields_of_not_skipped htag (by decide) hskip]
  rfl

end Groups

section Fields

theorem edited_swap {nest : Nat} {f g : WireField nest} (h : f.number ≠ g.number) :
    Edited nest (join [f, g]) (join [g, f]) := by
  refine .reorder fun n => ?_
  by_cases hf : f.number = n
  · have hg : g.number ≠ n := fun hg => h (hf.trans hg.symm)
    simp [hf, hg]
  · simp [List.filter_cons, hf]

def numberField (nest : Nat) (f : Field) (hf : f.wireType = .varint) (c : UInt8) (hc : c < 128) :
    WireField nest where
  number := f.number
  bytes := f.tag ++ [c]
  exists_value := by
    have htag := f.isTag
    rw [hf] at htag
    exact ⟨.varint, f.tag, [c], htag, .varint (isVarint_singleton hc), rfl⟩

theorem isCounted_short {m : Bytes} (hm : m.length < 128) :
    IsCounted m (m.length.toUInt8 :: m) := by
  have hlength := isVarint_singleton (toUInt8_lt hm)
  rw [toNat_toUInt8 (by omega)] at hlength
  exact ⟨_, hlength, rfl⟩

def messageField (nest : Nat) (m : Bytes) (hm : m.length < 128) : WireField nest where
  number := Field.children.number
  bytes := Field.children.tag ++ (m.length.toUInt8 :: m)
  exists_value := ⟨.bytes, Field.children.tag, m.length.toUInt8 :: m, Field.children.isTag,
    .bytes (isCounted_short hm), rfl⟩

theorem isChild_messageField (nest : Nat) {m : Bytes} (hm : m.length < 128) :
    (messageField nest m hm).IsChild m :=
  ⟨rfl, Field.children.tag, m.length.toUInt8 :: m, Field.children.isTag, isCounted_short hm, rfl⟩

end Fields

/-- Bytes that are read as a tree are a sequence of well-formed fields, and no chain of edits
changes the tree: fields may be moved past those with other numbers, and fields with unknown numbers
put in anywhere, at every level; of scalar fields with one number all but the last may be dropped,
or others that can be read put in front. Groups may be nested as deeply as readers follow them. -/
theorem readProto_edits {limit : Int} {b : Bytes} {t : Tree} (h : readProto limit b = .ok t) :
    (∃ fs : List (WireField (maxGroups + 1)), join fs = b) ∧
      ∀ b', Relation.ReflTransGen (Edited (maxGroups + 1)) b b' → readProto limit b' = .ok t := by
  have hdenotes := readProto_eq_ok_iff.mp h
  obtain ⟨-, ps, hbytes, -⟩ := denotes_iff.mp hdenotes
  exact ⟨⟨ps.map ReadField.field, hbytes⟩,
    fun b' hedits => readProto_eq_ok_iff.mpr (denotes_edits hedits hdenotes)⟩

/-- A statement with an integer, and the same with the child in front of the kind, its integer in
front of its kind, another kind in front of that, and two groups inside each other at the end. -/
theorem readProto_edits_statement :
    let b : Bytes := [0x08, 0x0B, 0x32, 0x04, 0x08, 0x01, 0x10, 0x02]
    let b' : Bytes := [0x32, 0x06, 0x08, 0x09, 0x10, 0x02, 0x08, 0x01, 0x08, 0x0B,
      0x3B, 0x3B, 0x3C, 0x3C]
    readProto 1 b = .ok (.node .expression [.node (.integer 1) []]) ∧ b ≠ b' ∧
      readProto 1 b' = .ok (.node .expression [.node (.integer 1) []]) := by
  intro b b'
  have hread : readProto 1 b = .ok (.node .expression [.node (.integer 1) []]) := rfl
  let kind (c : UInt8) (hc : c < 128) := numberField (maxGroups + 1) .kind rfl c hc
  let one := numberField (maxGroups + 1) .int rfl 2 (by decide)
  let child (m : Bytes) (hm : m.length < 128) := messageField (maxGroups + 1) m hm
  have hmoved : Edited (maxGroups + 1) b [0x32, 0x04, 0x08, 0x01, 0x10, 0x02, 0x08, 0x0B] :=
    edited_swap (f := kind 11 (by decide)) (g := child [0x08, 0x01, 0x10, 0x02] (by decide))
      (by decide)
  have hinner : Edited (maxGroups + 1) [0x08, 0x01, 0x10, 0x02] [0x10, 0x02, 0x08, 0x01] :=
    edited_swap (f := kind 1 (by decide)) (g := one) (by decide)
  have hreadable : (kind 9 (by decide)).IsReadable .kind :=
    ⟨rfl, Field.kind.tag, [0x09], .kind 9, Field.kind.isTag,
      .kind (isVarint_singleton (c := 9) (by decide)) (by decide), rfl⟩
  have hkind : Edited (maxGroups + 1) [0x10, 0x02, 0x08, 0x01]
      [0x08, 0x09, 0x10, 0x02, 0x08, 0x01] :=
    .precede [] [one] [] (g := kind 1 (by decide)) hreadable rfl
  have hchild : Edited (maxGroups + 1) [0x32, 0x04, 0x08, 0x01, 0x10, 0x02, 0x08, 0x0B]
      [0x32, 0x04, 0x10, 0x02, 0x08, 0x01, 0x08, 0x0B] :=
    .child [] [kind 11 (by decide)] (isChild_messageField _ (by decide))
      (isChild_messageField _ (by decide)) hinner
  have hchild' : Edited (maxGroups + 1) [0x32, 0x04, 0x10, 0x02, 0x08, 0x01, 0x08, 0x0B]
      [0x32, 0x06, 0x08, 0x09, 0x10, 0x02, 0x08, 0x01, 0x08, 0x0B] :=
    .child [] [kind 11 (by decide)] (isChild_messageField _ (by decide))
      (isChild_messageField _ (by decide)) hkind
  have hgroups : Edited (maxGroups + 1)
      [0x32, 0x06, 0x08, 0x09, 0x10, 0x02, 0x08, 0x01, 0x08, 0x0B] b' :=
    .insert [child [0x08, 0x09, 0x10, 0x02, 0x08, 0x01] (by decide), kind 11 (by decide)] []
      (f := groupsField (n := 1) (by decide)) (by decide)
  have hedits : Relation.ReflTransGen (Edited (maxGroups + 1)) b b' :=
    (((Relation.ReflTransGen.single hmoved).tail hchild).tail hchild').tail hgroups
  exact ⟨hread, by decide, (readProto_edits hread).2 b' hedits⟩

/-- A null literal is read, but not any more after an edit: with one group more than readers follow
behind it, or with a kind in front of it that there is not. -/
theorem readProto_edits_refused :
    let groups := nestedGroups 10002
    readProto 0 [0x08, 0x05] = .ok (.node .null []) ∧
      Edited 10002 [0x08, 0x05] ([0x08, 0x05] ++ groups) ∧
      readProto 0 ([0x08, 0x05] ++ groups) = .error .encoding ∧
      readProto 0 [0x08, 0x63, 0x08, 0x05] = .error (.fault (.noKind 99)) := by
  intro groups
  let kind := numberField 10002 .kind rfl 5 (by decide)
  have hedit : Edited 10002 (join ([kind] ++ []))
      (join ([kind] ++ groupsField (Nat.le_refl 10001) :: [])) := .insert [kind] [] (by decide)
  refine ⟨rfl, ?_, readProto_nestedGroups (Int.le_refl 0) (n := 10001) (by decide), rfl⟩
  have htag : Field.kind.tag = [0x08] := rfl
  simpa [join, kind, numberField, groupsField, htag] using hedit

end Codec

end Arbor
