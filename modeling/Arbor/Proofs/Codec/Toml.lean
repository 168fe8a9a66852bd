import Arbor.Codec.Basic
import Arbor.Proofs.Codec.Canonical
import Arbor.Proofs.Toml.Parser
import Arbor.Proofs.Toml.Scope
import Arbor.Proofs.Tree.Shape

/-! The next header goes up from the node in force, so a document is read in pre-order. -/
namespace Arbor

namespace Record

open Toml

section Lines

def tomlValue (kind : Bytes) (p : Payload) : Field → TomlValue
  | .kind => .string kind
  | .int => .integer (Bytes.ofInt p.int.toInt)
  | .float => floatValue p.float
  | .bool => .bool true
  | .str => .string p.str
  | .children => .array []

def tomlText (kind : Bytes) (p : Payload) : Field → Bytes
  | .kind => writeText kind
  | .int => Bytes.ofInt p.int.toInt
  | .float => writeFloat p.float
  | .bool => "true"
  | .str => writeText p.str
  | .children => []

variable {lead kind : Bytes} {p : Payload} {f : Field}

theorem tomlFields_eq (lead kind : Bytes) (p : Payload) :
    tomlFields lead kind p = p.fields.flatMap fun f =>
      lead ++ (Bytes.ofString f.name ++ Bytes.ofString " = " ++ tomlText kind p f ++ [10]) := by
  rw [Payload.flatMap_fields, tomlFields]
  simp [tomlEntry, tomlText]

theorem readsValue_tomlText (hkind : Utf8.isValid kind = true) (hstr : Utf8.isValid p.str = true)
    (hf : p.shows f = true) : ReadsValue (tomlText kind p f) (tomlValue kind p f) := by
  cases f with
  | kind => exact .text hkind
  | int => exact .int (by simpa [Payload.shows] using hf)
  | float => exact .float (by simpa [Payload.shows] using hf)
  | bool => exact .true
  | str => exact .text hstr
  | children => cases hf

def tomlAssign (kind : Bytes) (p : Payload) (f : Field) : TomlStatement :=
  .assign [Bytes.ofString f.name] (tomlValue kind p f)

theorem readsLines_fields {b : Bytes} {ss : List TomlStatement} {fs : List Field} (n : Nat)
    (hfs : ∀ f ∈ fs, ReadsValue (tomlText kind p f) (tomlValue kind p f)) (h : ReadsLines b ss) :
    ReadsLines (fs.flatMap (fun f => Bytes.blanks n ++
      (Bytes.ofString f.name ++ Bytes.ofString " = " ++ tomlText kind p f ++ [10])) ++ b)
      (fs.map (tomlAssign kind p) ++ ss) := by
  induction fs with
  | nil => exact h
  | cons f fs ih =>
      have hline := ReadsLines.assign n f.isWord_name (hfs f List.mem_cons_self)
        (ih fun g hg => hfs g (List.mem_cons_of_mem f hg))
      simpa [tomlAssign] using hline

end Lines

section Statements

/-- What is said of a tree whose root stands at a level. -/
def tomlStatements : Tree → Nat → List TomlStatement :=
  Tree.fold (fun _ => []) fun h below level =>
    h.payload.fields.map (tomlAssign (Bytes.ofString h.kind.name) h.payload) ++
      below.flatMap fun said =>
        .item (List.replicate (level + 1) childrenKey) :: said (level + 1)

theorem tomlStatements_node (h : Head) (cs : List Tree) (level : Nat) :
    tomlStatements (.node h cs) level =
      h.payload.fields.map (tomlAssign (Bytes.ofString h.kind.name) h.payload) ++
        cs.flatMap fun c =>
          .item (List.replicate (level + 1) childrenKey) :: tomlStatements c (level + 1) := by
  rw [tomlStatements, Tree.fold_node, List.flatMap_map]

variable {indent level : Nat} {rest : Bytes} {ss : List TomlStatement}

theorem readsLines_children (indent level : Nat) {cs : List Tree}
    (hcs : ∀ c ∈ cs, ∀ {rest : Bytes} {ss : List TomlStatement}, ReadsLines rest ss →
      ReadsLines (tomlOnto indent (level + 1) rest (ofTree c))
        (tomlStatements c (level + 1) ++ ss)) (h : ReadsLines rest ss) :
    ReadsLines (tomlAllOnto indent (level + 1) rest (cs.map ofTree))
      (cs.flatMap (fun c =>
        .item (List.replicate (level + 1) childrenKey) :: tomlStatements c (level + 1)) ++ ss) := by
  induction cs with
  | nil => exact h
  | cons c cs ih =>
      have hrest := ih fun e he => hcs e (List.mem_cons_of_mem c he)
      have hitem := (ReadsLines.item (indent * level) level Field.children.isWord_name
        (hcs c List.mem_cons_self hrest)).empty
      rw [List.map_cons, tomlAllOnto, tomlHeader]
      simpa [childrenKey] using hitem

/-- The lines of a tree say what is to be said of it, whatever follows. -/
theorem readsLines_tomlOnto (indent level : Nat) {t : Tree} (ht : t.Complete)
    (htext : t.EachHead fun h => Utf8.isValid h.payload.str = true) (h : ReadsLines rest ss) :
    ReadsLines (tomlOnto indent level rest (ofTree t)) (tomlStatements t level ++ ss) := by
  induction t generalizing level rest ss with
  | absent => cases ht
  | node l cs ih =>
      obtain ⟨hl, hcs⟩ := Tree.eachHead_node_iff.mp htext
      have hchildren := readsLines_children indent level
        (fun c hc _ _ => ih c hc (level + 1) (ht.children c hc) (hcs c hc)) h
      have hfields := readsLines_fields (indent * level)
        (fun f hf => readsValue_tomlText l.kind.isValid_name hl (Payload.shows_of_mem hf)) hchildren
      rw [ofTree_node, tomlOnto, tomlFields_eq, tomlStatements_node, List.append_assoc]
      exact hfields

end Statements

section Fields

variable {kind : Bytes} {p : Payload} {f : Field}

theorem present_restore (hf : p.shows f = true) (r : Record) :
    restore kind p r.present f = restore kind p r f := by
  cases r with
  | node => rfl
  | null =>
      cases f with
      | children => cases hf
      | _ => rfl

/-- The kind is written first, and no child needs to be there for it. -/
theorem foldl_restore_null (kind : Bytes) (p : Payload) :
    p.fields.foldl (restore kind p) null = p.fields.foldl (restore kind p) blank := rfl

theorem tomlField?_name (f : Field) : tomlField? (Bytes.ofString f.name) = some f := by
  cases f <;> rfl

/-- Every value that is written sets its field. -/
theorem setToml_restore (kind : Bytes) (hf : p.shows f = true) (r : Record) :
    r.present.setToml [Bytes.ofString f.name] (tomlValue kind p f) =
      some (restore kind p r f) := by
  rw [← present_restore hf]
  cases f with
  | kind => rfl
  | int =>
      unfold setToml
      simp [tomlField?_name, tomlValue, integer?_ofInt, restore]
  | float =>
      have hread := float?_writeFloat (x := p.float) (by simpa [Payload.shows] using hf)
      rcases floatValue_eq p.float with hvalue | hvalue <;> rw [tomlValue, hvalue] <;>
        unfold setToml <;> simp [tomlField?_name, hread, restore]
  | bool =>
      have hbool : p.bool = true := hf
      rw [restore, hbool]
      rfl
  | str => rfl
  | children => cases hf

theorem singleValued_tomlValue (f : Field) : singleValued (tomlValue kind p f) = true := by
  cases f with
  | float =>
      rcases floatValue_eq p.float with hvalue | hvalue <;> rw [tomlValue, hvalue] <;> rfl
  | _ => rfl

end Fields

section Path

/-- What was said of the nodes above the one in force: of each its own fields and the children
before the one that leads there. -/
abbrev Above := List (Bytes × Payload × List Record)

/-- A record below the nodes above it. -/
def plug : Above → Record → Record
  | [], r => r
  | (kind, p, cs) :: above, r => node kind p (cs ++ [plug above r])

theorem plug_append (above : Above) (kind : Bytes) (p : Payload) (cs : List Record) (r : Record) :
    plug (above ++ [(kind, p, cs)]) r = plug above (node kind p (cs ++ [r])) := by
  induction above with
  | nil => rfl
  | cons a above ih => rw [List.cons_append, plug, plug, ih]

/-- A change at the end of the path of last children. -/
theorem modifyLast_plug (f : Record → Option Record) (above : Above) (r : Record) :
    modifyLast f above.length (plug above r) = (f r).map (plug above) := by
  induction above with
  | nil => exact Option.map_id'.symm
  | cons a above ih =>
      obtain ⟨kind, p, cs⟩ := a
      have hlast : (cs ++ [plug above r]).getLast? = some (plug above r) := List.getLast?_concat
      have hbefore : (cs ++ [plug above r]).dropLast = cs := List.dropLast_concat
      rw [List.length_cons, plug, modifyLast, present]
      · simp only [hlast, hbefore, ih, Option.map_map]
        rfl
      · rintro ⟨⟩

end Path

end Record

namespace Toml.Reader

open Record

/-- The scope of a table in which some fields have no value yet, and the children no other than
tables. -/
def Awaits (fs : List Field) (s : Scope) : Prop :=
  (∀ f ∈ fs, s.get? (Bytes.ofString f.name) = none) ∧ s.Extendable childrenKey

/-- The reader in the table of children at a depth. -/
structure At (depth : Nat) (p : Scope → Prop) (record : Record) (r : Reader) : Prop where
  header : r.header = List.replicate depth childrenKey
  place : r.place = .record depth
  scope : r.scope.Opened childrenKey p depth
  record : r.record = record

section Step

variable {above : Above} {u : Record} {r : Reader}

/-- A field that has no value yet is set in the record in force. -/
theorem At.assign {fs : List Field} {f : Field} {v : TomlValue} {u' : Record}
    (hr : r.At above.length (Awaits (f :: fs)) (plug above u)) (hfs : f ∉ fs) (hf : f ≠ .children)
    (hv : singleValued v = true) (hu : u.present.setToml [Bytes.ofString f.name] v = some u') :
    ∃ r', r.step (.assign [Bytes.ofString f.name] v) = some r' ∧
      r'.At above.length (Awaits fs) (plug above u') := by
  have hdefine : ∀ s, Awaits (f :: fs) s → ∃ s', s.define [Bytes.ofString f.name] = some s' ∧
      s'.role = s.role ∧ Awaits fs s' := by
    rintro s ⟨hnone, hextend⟩
    obtain ⟨s', hs', hrole, -, hother⟩ := Scope.define_spec (hnone f List.mem_cons_self)
    refine ⟨s', hs', hrole, ?_, ?_⟩
    · intro g hg
      rw [hother _ (Field.ofString_name_ne fun h => hfs (h ▸ hg))]
      exact hnone g (List.mem_cons_of_mem f hg)
    · intro below hbelow
      rw [childrenKey, hother _ (Field.ofString_name_ne hf.symm)] at hbelow
      exact hextend below hbelow
  obtain ⟨s', hs', -, hopened⟩ := hr.scope.alterAt hdefine
  refine ⟨{ r with scope := s', record := plug above u' }, ?_, hr.header, hr.place, hopened, rfl⟩
  rw [step, hr.place]
  simp only [hr.header, hs', hr.record, modifyLast_plug, hu, hv, Option.bind_eq_bind,
    Option.bind_some, Option.map_some]
  rfl

theorem childrenParts_replicate (n : Nat) :
    childrenParts (List.replicate n childrenKey) = (n, none) := by
  induction n with
  | zero => rfl
  | succ n ih =>
      have hkey : tomlField? childrenKey = some .children := rfl
      rw [List.replicate_succ, childrenParts, hkey]
      simp only [ih]

/-- A header goes up to a node above the one in force and down to a new child of it. -/
theorem At.item {depth : Nat} {kind : Bytes} {p : Payload} {cs : List Record}
    (hr : r.At depth (Scope.Extendable childrenKey) (plug above (node kind p cs)))
    (hdepth : above.length ≤ depth) :
    ∃ r', r.step (.item (List.replicate (above.length + 1) childrenKey)) = some r' ∧
      r'.At (above ++ [(kind, p, cs)]).length (fun s => s.names = [])
        (plug (above ++ [(kind, p, cs)]) null) := by
  -- The header in force is closed first, which leaves an array of tables one.
  have hclose : ∀ s : Scope, s.Extendable childrenKey →
      ∃ s', some (s.setNames (Scope.closeNames s.names)) = some s' ∧ s'.role = s.role ∧
        s'.Extendable childrenKey := by
    intro s hs
    refine ⟨_, rfl, by cases s; rfl, ?_⟩
    intro below hbelow
    have hlookup : (s.get? childrenKey).map Scope.close = some below := by
      rw [← hbelow]
      cases s
      exact (Scope.lookup_closeNames _ _).symm
    obtain ⟨before, hbefore, rfl⟩ := Option.map_eq_some_iff.mp hlookup
    rw [Scope.role_close]
    exact hs before hbefore
  obtain ⟨s, hs, -, hopened⟩ := hr.scope.alterAt hclose
  obtain ⟨s', hs', -, hopened'⟩ := (hopened.of_le hdepth).openItem
  have hclosed : r.closed = some s := by rw [closed, hr.header, hs]
  refine ⟨⟨s', List.replicate (above.length + 1) childrenKey, .record (above.length + 1),
    plug (above ++ [(kind, p, cs)]) null⟩, ?_, ?_, ?_, ?_, rfl⟩
  · rw [step, hclosed]
    simp only [Option.bind_eq_bind, Option.bind_some, hs', append, childrenParts_replicate,
      hr.record, modifyLast_plug, plug_append]
    rfl
  all_goals rw [List.length_append]
  · rfl
  · rfl
  · exact hopened'

end Step

section Run

variable {above : Above} {u : Record} {r : Reader}

theorem At.fields (kind : Bytes) {p : Payload} {fs : List Field} (hnodup : fs.Nodup)
    (hshows : ∀ f ∈ fs, p.shows f = true)
    (hr : r.At above.length (Awaits fs) (plug above u)) :
    ∃ r', (fs.map (tomlAssign kind p)).foldlM step r = some r' ∧
      r'.At above.length (Awaits []) (plug above (fs.foldl (restore kind p) u)) := by
  induction fs generalizing r u with
  | nil => exact ⟨r, rfl, hr⟩
  | cons f fs ih =>
      obtain ⟨hnew, hnodup⟩ := List.nodup_cons.mp hnodup
      have hf := hshows f List.mem_cons_self
      have hchildren : f ≠ .children := by
        rintro rfl
        cases hf
      obtain ⟨r₁, hstep, hr₁⟩ := hr.assign hnew hchildren (singleValued_tomlValue f)
        (setToml_restore kind hf u)
      obtain ⟨r₂, hrun, hr₂⟩ := ih hnodup (fun g hg => hshows g (List.mem_cons_of_mem f hg)) hr₁
      refine ⟨r₂, ?_, hr₂⟩
      rw [List.map_cons, List.foldlM_cons, tomlAssign, hstep]
      exact hrun

theorem At.children {kind : Bytes} {p : Payload} {cs : List Tree} {done : List Record} {depth : Nat}
    (hcs : ∀ c ∈ cs, ∀ {above : Above} {r : Reader},
      r.At above.length (fun s => s.names = []) (plug above null) →
      ∃ r' depth, (tomlStatements c above.length).foldlM step r = some r' ∧ above.length ≤ depth ∧
        r'.At depth (Scope.Extendable childrenKey) (plug above (ofTree c.canonical)))
    (hdepth : above.length ≤ depth)
    (hr : r.At depth (Scope.Extendable childrenKey) (plug above (node kind p done))) :
    ∃ r' depth, (cs.flatMap fun c => .item (List.replicate (above.length + 1) childrenKey) ::
        tomlStatements c (above.length + 1)).foldlM step r = some r' ∧ above.length ≤ depth ∧
      r'.At depth (Scope.Extendable childrenKey)
        (plug above (node kind p (done ++ (cs.map Tree.canonical).map ofTree))) := by
  induction cs generalizing r done depth with
  | nil =>
      rw [List.map_nil, List.map_nil, List.append_nil]
      exact ⟨r, depth, rfl, hdepth, hr⟩
  | cons c cs ih =>
      obtain ⟨r₁, hitem, hr₁⟩ := hr.item hdepth
      obtain ⟨r₂, depth₂, htree, hdepth₂, hr₂⟩ := hcs c List.mem_cons_self hr₁
      rw [List.length_append, List.length_singleton] at htree hdepth₂
      rw [plug_append] at hr₂
      obtain ⟨r₃, depth₃, hrest, hdepth₃, hr₃⟩ :=
        ih (fun e he => hcs e (List.mem_cons_of_mem c he)) (by omega) hr₂
      refine ⟨r₃, depth₃, ?_, hdepth₃, ?_⟩
      · rw [List.flatMap_cons, List.cons_append, List.foldlM_cons, hitem]
        simp only [Option.bind_eq_bind, Option.bind_some, List.foldlM_append, htree]
        exact hrest
      · rw [List.append_assoc] at hr₃
        exact hr₃

/-- What is said of a tree makes its record of a record in which nothing has been set. -/
theorem At.tree (above : Above) {t : Tree} (ht : t.Complete) (hu : u = null ∨ u = blank)
    (hr : r.At above.length (fun s => s.names = []) (plug above u)) :
    ∃ r' depth, (tomlStatements t above.length).foldlM step r = some r' ∧ above.length ≤ depth ∧
      r'.At depth (Scope.Extendable childrenKey) (plug above (ofTree t.canonical)) := by
  induction t generalizing above u r with
  | absent => cases ht
  | node h cs ih =>
      have hawaits : ∀ s : Scope, s.names = [] → Awaits h.payload.fields s := by
        intro s hs
        have hnone : ∀ name, s.get? name = none := by
          intro name
          rw [Scope.get?, hs]
          rfl
        refine ⟨fun f _ => hnone _, fun below hbelow => ?_⟩
        rw [hnone] at hbelow
        cases hbelow
      have hempty : r.At above.length (Awaits h.payload.fields) (plug above u) :=
        ⟨hr.header, hr.place, hr.scope.mono hawaits, hr.record⟩
      obtain ⟨r₁, hfields, hr₁⟩ := hempty.fields (Bytes.ofString h.kind.name)
        h.payload.nodup_fields fun f => Payload.shows_of_mem
      have hnode : h.payload.fields.foldl (restore (Bytes.ofString h.kind.name) h.payload) u =
          node (Bytes.ofString h.kind.name) h.canonical.payload [] := by
        rw [h.payload_canonical, ← foldl_restore]
        rcases hu with rfl | rfl
        · exact foldl_restore_null _ _
        · rfl
      rw [hnode] at hr₁
      -- Every field has its value now, and the children may still be opened.
      obtain ⟨r₂, depth, hrest, hdepth, hr₂⟩ := At.children
        (fun c hc above _ => ih c hc above (ht.children c hc) (.inl rfl)) (Nat.le_refl _)
        (⟨hr₁.header, hr₁.place, hr₁.scope.mono fun _ => And.right, hr₁.record⟩)
      refine ⟨r₂, depth, ?_, hdepth, ?_⟩
      · rw [tomlStatements_node, List.foldlM_append, hfields]
        exact hrest
      · rw [Tree.canonical_node, ofTree_node, h.kind_canonical]
        exact hr₂

end Run

end Toml.Reader

namespace Codec

open Record

theorem readToml?_writeToml {t : Tree} (ht : t.Complete)
    (htext : t.EachHead fun h => Utf8.isValid h.payload.str = true) (indent : Int) :
    readToml? (writeToml indent (ofTree t)) = some (ofTree t.canonical) := by
  have hlines := readsLines_tomlOnto indent.toNat 0 ht htext .nil
  rw [List.append_nil] at hlines
  obtain ⟨r, depth, hrun, -, hr⟩ := Toml.Reader.At.tree [] (r := {}) ht (.inr rfl)
    ⟨rfl, rfl, rfl, rfl⟩
  rw [readToml?, writeToml, hlines.statements?]
  simp only [Option.bind_eq_bind, Option.bind_some]
  rw [show (tomlStatements t 0).foldlM Toml.Reader.step {} = some r from hrun, Option.bind_some,
    hr.record]
  rfl

theorem head?_writeToml {t : Tree} (ht : t.Complete) (indent : Int) :
    (writeToml indent (ofTree t)).head? = some 107 := by
  cases ht with
  | node =>
      rw [writeToml, ofTree_node, tomlOnto, tomlFields]
      simp only [Nat.mul_zero]
      rfl

/-- A valid tree whose texts are UTF-8 is written in TOML with any indentation, and its text is
read as the same tree up to the signs of zeros and the payloads of NaNs: the two compare as zero.
There is no limit to the nesting of headers. -/
theorem read_write_toml {limit indent : Int} {t : Tree} (ht : t.validate limit = .ok ())
    (htext : t.EachHead fun h => Utf8.isValid h.payload.str = true) :
    ∃ b, write limit { format := .ok .toml, indent } t = .ok b ∧
      read limit { format := .ok .toml } b = .ok t.canonical ∧
      t.compare limit t.canonical = .ok 0 := by
  have hcomplete := Tree.complete_of_validateAt ht
  refine ⟨writeToml indent (ofTree t), read_write_of_record (by decide) ht ?_ rfl ?_ ?_⟩
  · simpa only [Format.objection?_eq_none_iff (f := .toml) (by decide) (by decide)] using htext
  · rw [head?_writeToml hcomplete]
    decide
  · exact readToml?_writeToml hcomplete htext indent

/-- A call in a call, with a text of both quotes, a backslash, a control character, a line end and a
character beyond the first plane, the least integer, a NaN, and the infinities. -/
theorem read_write_toml_call :
    let text : Bytes := [0x27, 0x22, 0x5C, 0x7F, 0x0A, 0xF0, 0x9F, 0x98, 0x80]
    let call (nan : Binary64) := Tree.node .invocation [.node (.identifier text) [],
      .node .invocation [.node (.identifier [0x23, 0x20]) [],
        .node (.integer (-9223372036854775808)) [], .node (.float nan) []],
      .node (.float (.infinity true)) [], .node (.float (.infinity false)) []]
    (call ⟨0xFFF0000000000001⟩).validate 2 = .ok () ∧
      ∃ b, write 2 { format := .ok .toml, indent := -1 } (call ⟨0xFFF0000000000001⟩) = .ok b ∧
        read 2 { format := .ok .toml } b = .ok (call .nan) := by
  intro text call
  have hvalid : (call ⟨0xFFF0000000000001⟩).validate 2 = .ok () := rfl
  have htext : (call ⟨0xFFF0000000000001⟩).EachHead fun h =>
      Utf8.isValid h.payload.str = true := by
    simp only [call, Tree.eachHead_node_iff, List.forall_mem_cons, List.not_mem_nil,
      false_implies, implies_true, and_true]
    decide
  obtain ⟨b, hwrite, hread, -⟩ := @read_write_toml 2 (-1) _ hvalid htext
  exact ⟨hvalid, b, hwrite, hread⟩

end Codec

end Arbor
