import Arbor.Proofs.Codec.Record
import Arbor.Proofs.Text.Token
import Arbor.Proofs.Tree.Order

/-! Zeros and NaNs come back from most formats as one zero and one NaN. -/
namespace Arbor

namespace Head

/-- The head, with its number in the form that is read back. -/
def canonical : Head → Head
  | float x => float x.canonical
  | h => h

@[simp] theorem kind_canonical (h : Head) : h.canonical.kind = h.kind := by
  cases h <;> rfl

theorem canonical_same (h : Head) : h.canonical.Same h := by
  cases h with
  | float x => exact .float x.canonical_same
  | _ => exact .refl _

theorem payload_canonical (h : Head) :
    h.canonical.payload = { h.payload with float := h.payload.float.canonical } := by
  cases h <;> rfl

end Head

namespace Tree

def canonical : Tree → Tree := fold .absent fun h cs => .node h.canonical cs

theorem canonical_node (h : Head) (cs : List Tree) :
    canonical (.node h cs) = .node h.canonical (cs.map canonical) :=
  fold_node _ _ h cs

theorem canonical_same (t : Tree) : t.canonical.Same t := same_fold Head.canonical_same t

end Tree

namespace Field

theorem isWord_name (f : Field) : (Bytes.ofString f.name).IsWord := by
  cases f <;> decide

theorem ofName?_name (f : Field) : ofName? (Bytes.ofString f.name) = some f := by
  cases f <;> rfl

theorem ofString_name_ne {f g : Field} (hne : f ≠ g) :
    Bytes.ofString f.name ≠ Bytes.ofString g.name := by
  intro heq
  have hf := ofName?_name f
  rw [heq, ofName?_name] at hf
  exact hne (Option.some.inj hf).symm

end Field

namespace Payload

/-- Whether a field is written: its value is not zero. The children are not part of a payload. -/
def shows (p : Payload) : Field → Bool
  | .kind => true
  | .int => p.int ≠ 0
  | .float => !p.float.isZero
  | .bool => p.bool
  | .str => p.str ≠ []
  | .children => false

def fields (p : Payload) : List Field := Field.all.filter p.shows

theorem shows_of_mem {p : Payload} {f : Field} (hf : f ∈ p.fields) : p.shows f = true :=
  (List.mem_filter.mp hf).2

theorem nodup_fields (p : Payload) : p.fields.Nodup := List.Pairwise.filter p.shows (by decide)

theorem flatMap_fields {α : Type} (p : Payload) (text : Field → List α) :
    p.fields.flatMap text = text .kind ++ (if p.int ≠ 0 then text .int else []) ++
      (if (!p.float.isZero) = true then text .float else []) ++
      (if p.bool then text .bool else []) ++ (if p.str ≠ [] then text .str else []) := by
  have hfilter : ∀ fs : List Field,
      (fs.filter p.shows).flatMap text = fs.flatMap fun f => if p.shows f then text f else [] := by
    intro fs
    induction fs with
    | nil => rfl
    | cons f fs ih =>
        rw [List.filter_cons, List.flatMap_cons, ← ih]
        split <;> simp
  rw [fields, hfilter, Field.all]
  simp [shows]

end Payload

namespace Record

def childrenKey : Bytes := Bytes.ofString Field.children.name

variable {kind : Bytes} {p : Payload}

/-- A field set to the value that is read back. -/
def restore (kind : Bytes) (p : Payload) (r : Record) : Field → Record
  | .kind => r.setKind kind
  | .int => r.setInt p.int
  | .float => r.setFloat p.float.canonical
  | .bool => r.setBool p.bool
  | .str => r.setStr p.str
  | .children => r

/-- The fields that are not written are zero in a blank record. -/
theorem foldl_restore (kind : Bytes) (p : Payload) :
    p.fields.foldl (restore kind p) blank =
      node kind { p with float := p.float.canonical } [] := by
  have hint : (if p.shows .int then restore kind p (node kind {} []) .int else node kind {} []) =
      node kind { int := p.int } [] := by
    by_cases h : p.int = 0 <;> simp [Payload.shows, h, restore, setInt, mapPayload]
  have hfloat : (if p.shows .float then restore kind p (node kind { int := p.int } []) .float
      else node kind { int := p.int } []) =
      node kind { int := p.int, float := p.float.canonical } [] := by
    cases h : p.float.isZero with
    | true => simp [Payload.shows, h, Binary64.canonical_of_isZero h]
    | false => simp [Payload.shows, h, restore, setFloat, mapPayload]
  have hbool : (if p.shows .bool then
      restore kind p (node kind { int := p.int, float := p.float.canonical } []) .bool
      else node kind { int := p.int, float := p.float.canonical } []) =
      node kind { int := p.int, float := p.float.canonical, bool := p.bool } [] := by
    cases h : p.bool <;> simp [Payload.shows, h, restore, setBool, mapPayload]
  have hstr : (if p.shows .str then restore kind p
      (node kind { int := p.int, float := p.float.canonical, bool := p.bool } []) .str
      else node kind { int := p.int, float := p.float.canonical, bool := p.bool } []) =
      node kind { p with float := p.float.canonical } [] := by
    by_cases h : p.str = [] <;> simp [Payload.shows, h, restore, setStr, mapPayload]
  rw [Payload.fields, List.foldl_filter]
  simp only [Field.all, List.foldl_cons, List.foldl_nil]
  have hkind : (if p.shows .kind then restore kind p blank .kind else blank) = node kind {} [] :=
    rfl
  have hchildren : ∀ r, (if p.shows .children then restore kind p r .children else r) = r :=
    fun _ => rfl
  rw [hkind, hint, hfloat, hbool, hstr, hchildren]

/-- A reader that sets every field that is written reads a node back but for its children. -/
theorem foldlM_fields (kind : Bytes) {set : Record → Field → Option Record}
    (hset : ∀ f, p.shows f = true → ∀ r, set r f = some (restore kind p r f)) :
    p.fields.foldlM set blank = some (node kind { p with float := p.float.canonical } []) := by
  have hfold : ∀ (fs : List Field) (r : Record), (∀ f ∈ fs, p.shows f = true) →
      fs.foldlM set r = some (fs.foldl (restore kind p) r) := by
    intro fs
    induction fs with
    | nil => intro r _; rfl
    | cons f fs ih =>
        intro r hfs
        rw [List.foldlM_cons, hset f (hfs f List.mem_cons_self), List.foldl_cons]
        exact ih _ fun g hg => hfs g (List.mem_cons_of_mem f hg)
  rw [hfold _ _ fun _ => Payload.shows_of_mem, foldl_restore]

end Record

namespace Codec

variable {limit indent : Int}

/-- A format of records whose bytes are read as the record of the canonical tree. -/
theorem read_write_of_record {f : Format} (hproto : f ≠ .proto) {t : Tree} {b : Bytes}
    (ht : t.validate limit = .ok ())
    (htext : t.EachHead fun h => Format.objection? (some f) h.payload.str = none)
    (hwrite : writeRecord indent (Record.ofTree t) f = .ok b) (hhead : b.head? ≠ some 0x28)
    (hread : readRecord? b f = some (Record.ofTree t.canonical)) :
    write limit { format := .ok f, indent } t = .ok b ∧
      read limit { format := .ok f } b = .ok t.canonical ∧
      t.compare limit t.canonical = .ok 0 := by
  have hcanonical : t.canonical.validate limit = .ok () := t.canonical_same.validateAt ht
  exact ⟨(write_eq_ok_iff hproto).mpr ⟨ht, htext, hwrite⟩,
    read_of_record hproto hhead hcanonical hread,
    Tree.compare_of_same hcanonical t.canonical_same.symm⟩

end Codec

end Arbor
