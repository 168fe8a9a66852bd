import Arbor.Proofs.Codec.Cbor
import Arbor.Proofs.Codec.Proto
import Arbor.Proofs.Text.Codes

/-! Binary encodings tell trees apart by themselves, no reader taking part. -/
namespace Arbor

namespace Payload

variable {p q : Payload}

theorem mem_fields_iff {f : Field} : f ∈ p.fields ↔ p.shows f = true := by
  rw [fields, List.mem_filter]
  refine and_iff_right ?_
  cases f <;> decide

theorem isZero_of_mem_fields (hf : .float ∈ p.fields) : p.float.isZero = false := by
  simpa only [shows, Bool.not_eq_true'] using mem_fields_iff.mp hf

theorem children_not_mem_fields (p : Payload) : .children ∉ p.fields := by
  rw [mem_fields_iff]
  exact Bool.false_ne_true

/-- Fields that are not written are zero, so payloads that agree in those that are agree. The number
is told up to a form that all zeros share. -/
theorem eq_of_fields (form : Binary64 → Binary64) (hform : ∀ x, x.isZero = true → form x = .zero)
    (hfields : p.fields = q.fields) (hint : .int ∈ p.fields → p.int = q.int)
    (hfloat : .float ∈ p.fields → form p.float = form q.float)
    (hstr : .str ∈ p.fields → p.str = q.str) :
    ({ p with float := form p.float } : Payload) = { q with float := form q.float } := by
  have hshows : ∀ f, p.shows f = q.shows f := by
    intro f
    rw [Bool.eq_iff_iff, ← mem_fields_iff, hfields, mem_fields_iff]
  simp only [mem_fields_iff] at hint hfloat hstr
  have hint' : p.int = q.int := by
    cases hp : p.shows .int with
    | true => exact hint hp
    | false =>
        have hq := (hshows .int).symm.trans hp
        simp only [shows, decide_eq_false_iff_not, not_not] at hp hq
        rw [hp, hq]
  have hfloat' : form p.float = form q.float := by
    cases hp : p.shows .float with
    | true => exact hfloat hp
    | false =>
        have hq := (hshows .float).symm.trans hp
        simp only [shows, Bool.not_eq_false'] at hp hq
        rw [hform _ hp, hform _ hq]
  have hstr' : p.str = q.str := by
    cases hp : p.shows .str with
    | true => exact hstr hp
    | false =>
        have hq := (hshows .str).symm.trans hp
        simp only [shows, decide_eq_false_iff_not, not_not] at hp hq
        rw [hp, hq]
  have hbool : p.bool = q.bool := hshows .bool
  rw [hint', hfloat', hstr', hbool]

end Payload

namespace Head

theorem eq_of_payload {h k : Head} (hkind : h.kind = k.kind) (hpayload : h.payload = k.payload) :
    h = k := by
  rw [← h.ofPayload_payload, hkind, hpayload, k.ofPayload_payload]

end Head

namespace CborItem

/-- The bytes of items that are read are taken apart by reading them. -/
theorem Reads.separate {c d : Coded} {height height' : Nat} {item item' : CborItem}
    (hc : Reads c height) (hd : Reads d height') (hle : height ≤ maxNesting)
    (hle' : height' ≤ maxNesting) (hitem : c.item? = some item) (hitem' : d.item? = some item')
    {s r : Bytes} (h : c.bytes ++ s = d.bytes ++ r) : item = item' ∧ s = r := by
  have hread := hc (2 * c.bytes.length + 2 * d.bytes.length) 0 s (by omega) (by omega)
  rw [h, hd _ 0 r (by omega) (by omega), hitem, hitem'] at hread
  obtain ⟨hfirst, hrest⟩ := Prod.mk.inj (Option.some.inj hread)
  exact ⟨hfirst.symm, hrest.symm⟩

theorem head_append_inj {major m n : Nat} (hmajor : major < 8) (hm : m < 2 ^ 64) (hn : n < 2 ^ 64)
    {s r : Bytes} (h : head major m ++ s = head major n ++ r) : m = n ∧ s = r := by
  obtain ⟨info, hread⟩ := readHead?_head hmajor hm s
  obtain ⟨info', hread'⟩ := readHead?_head hmajor hn r
  rw [h, hread'] at hread
  have hhead := Option.some.inj hread
  simp only [Head.mk.injEq, Option.some.injEq, true_and] at hhead
  exact ⟨hhead.2.1.symm, hhead.2.2.symm⟩

end CborItem

namespace Tree

/-- Whatever follows them, the same bytes come from trees that are the same. -/
def ToldApart (t u : Tree) : Prop :=
  Separates (fun t : Tree => t.coded.bytes) (fun t => t.coded.bytes)
    (fun t u => t.canonical = u.canonical) t u

end Tree

namespace Record

open CborItem

section Values

variable {h k : Head} {p q : Payload} {cs ds : List Tree} {f g : Field}

def nodeFields (p : Payload) (cs : List Tree) : List Field :=
  p.fields ++ if cs = [] then [] else [.children]

theorem mem_nodeFields_iff (hf : f ≠ .children) : f ∈ nodeFields p cs ↔ f ∈ p.fields := by
  rw [nodeFields, List.mem_append]
  refine or_iff_left ?_
  split <;> simp [hf]

theorem children_mem_nodeFields_iff : .children ∈ nodeFields p cs ↔ cs ≠ [] := by
  rw [nodeFields, List.mem_append, or_iff_right p.children_not_mem_fields]
  split <;> simp [*]

theorem fields_eq_of_nodeFields (heq : nodeFields p cs = nodeFields q ds) :
    p.fields = q.fields := by
  have hfilter : ∀ (p : Payload) (cs : List Tree),
      (nodeFields p cs).filter (· ≠ .children) = p.fields := by
    intro p cs
    have hchildren : (if cs = [] then [] else [Field.children]).filter (· ≠ .children) = [] := by
      split <;> rfl
    rw [nodeFields, List.filter_append, hchildren, List.append_nil, List.filter_eq_self]
    intro f hf
    have hshows := Payload.shows_of_mem hf
    cases f <;> first | rfl | cases hshows
  rw [← hfilter p cs, heq, hfilter]

def cborValue (h : Head) (cs : List Tree) : Field → Bytes
  | .kind => cborText (Bytes.ofString h.kind.name)
  | .int => cborInt h.payload.int
  | .float => cborFloat h.payload.float
  | .bool => [0xF5]
  | .str => cborText h.payload.str
  | .children => (Coded.array (cs.map Tree.coded)).bytes

def cborPair (h : Head) (cs : List Tree) (f : Field) : Bytes :=
  head 0 f.number ++ cborValue h cs f

def nodeEntries (h : Head) (cs : List Tree) : List (Field × Coded) :=
  entries (Bytes.ofString h.kind.name) h.payload (cs.map Tree.coded)

theorem map_nodeEntries (h : Head) (cs : List Tree) :
    (nodeEntries h cs).map (fun e => (e.1, e.2.bytes)) =
      (nodeFields h.payload cs).map fun f => (f, cborValue h cs f) := by
  have hoptional : ∀ (f : Field) (present : Bool) (c : Coded),
      (optional f present c).map (fun e => (e.1, e.2.bytes)) =
        if present then [(f, c.bytes)] else [] := by
    intro f present c
    cases present <;> rfl
  rw [nodeFields, List.map_append, List.map_eq_flatMap (l := h.payload.fields),
    Payload.flatMap_fields]
  simp only [nodeEntries, entries, List.map_cons, List.map_append, hoptional, cborValue,
    List.append_assoc]
  cases cs <;> simp

theorem length_nodeEntries (h : Head) (cs : List Tree) :
    (nodeEntries h cs).length = (nodeFields h.payload cs).length := by
  simpa only [List.length_map] using congrArg List.length (map_nodeEntries h cs)

theorem length_nodeFields_le (h : Head) (cs : List Tree) :
    (nodeFields h.payload cs).length ≤ 6 := by
  rw [← length_nodeEntries]
  exact length_entries_le

theorem bytes_node (h : Head) (cs : List Tree) : (Tree.node h cs).coded.bytes =
    head 5 (nodeFields h.payload cs).length ++
      (nodeFields h.payload cs).flatMap (cborPair h cs) := by
  have hbytes := congrArg (List.flatMap fun e => head 0 e.1.number ++ e.2) (map_nodeEntries h cs)
  rw [List.flatMap_map, List.flatMap_map] at hbytes
  rw [Tree.coded_node, Coded.map, ← length_nodeEntries]
  exact congrArg (head 5 (nodeEntries h cs).length ++ ·) hbytes

/-- What equal values of a field have in common. -/
def Agree (h k : Head) (cs ds : List Tree) : Field → Prop
  | .kind => h.kind = k.kind
  | .int => h.payload.int = k.payload.int
  | .float => h.payload.float.canonical = k.payload.float.canonical
  | .bool => True
  | .str => h.payload.str = k.payload.str
  | .children => cs.map Tree.canonical = ds.map Tree.canonical

theorem cborText_append_inj {a b s r : Bytes} (ha : a.length < 2 ^ 64) (hb : b.length < 2 ^ 64)
    (h : cborText a ++ s = cborText b ++ r) : a = b ∧ s = r := by
  obtain ⟨hitem, hrest⟩ := (reads_text ha).separate (reads_text hb) (by decide) (by decide) rfl
    rfl h
  simp only [text.injEq, List.cons.injEq, and_true] at hitem
  exact ⟨hitem, hrest⟩

theorem cborInt_append_inj {v w : Int64} {s r : Bytes} (h : cborInt v ++ s = cborInt w ++ r) :
    v = w ∧ s = r := by
  obtain ⟨hitem, hrest⟩ := (reads_int v).separate (reads_int w) (by decide) (by decide) rfl rfl h
  have hvalue := int64?_ofInt64 v
  rw [hitem, int64?_ofInt64] at hvalue
  exact ⟨(Option.some.inj hvalue).symm, hrest⟩

theorem cborFloat_append_inj {x y : Binary64} {s r : Bytes} (hx : x.isZero = false)
    (hy : y.isZero = false) (h : cborFloat x ++ s = cborFloat y ++ r) :
    x.canonical = y.canonical ∧ s = r := by
  obtain ⟨hitem, hrest⟩ := (reads_float hx).separate (reads_float hy) (by decide) (by decide) rfl
    rfl h
  exact ⟨float.inj hitem, hrest⟩

theorem array_append_inj (hcs : cs.length < 2 ^ 64) (hds : ds.length < 2 ^ 64)
    (htrees : ∀ c ∈ cs, ∀ d ∈ ds, c.ToldApart d) {s r : Bytes}
    (h : (Coded.array (cs.map Tree.coded)).bytes ++ s =
      (Coded.array (ds.map Tree.coded)).bytes ++ r) :
    cs.map Tree.canonical = ds.map Tree.canonical ∧ s = r := by
  simp only [Coded.array, List.length_map, List.append_assoc, List.flatMap_map] at h
  obtain ⟨hlength, h⟩ := head_append_inj (by decide) hcs hds h
  obtain ⟨hall, hrest⟩ := forall₂_of_flatMap htrees hlength h
  exact ⟨Tree.map_eq_of_forall₂ hall fun _ _ _ heq => heq, hrest⟩

theorem isZero_of_mem_nodeFields (hf : .float ∈ nodeFields p cs) : p.float.isZero = false :=
  Payload.isZero_of_mem_fields ((mem_nodeFields_iff (by decide)).mp hf)

/-- Fields of two nodes with the same bytes are one field with values that agree. -/
theorem cborPair_separates (hstr : h.payload.str.length < 2 ^ 64)
    (hstr' : k.payload.str.length < 2 ^ 64) (hcs : cs.length < 2 ^ 64) (hds : ds.length < 2 ^ 64)
    (htrees : ∀ c ∈ cs, ∀ d ∈ ds, c.ToldApart d) (hf : f ∈ nodeFields h.payload cs)
    (hg : g ∈ nodeFields k.payload ds) :
    Separates (cborPair h cs) (cborPair k ds) (fun f g => Agree h k cs ds f ∧ f = g) f g := by
  intro s r heq
  rw [cborPair, cborPair, List.append_assoc, List.append_assoc] at heq
  obtain ⟨hnumber, heq⟩ := head_append_inj (by decide) (number_lt f) (number_lt g) heq
  have hfield : f = g := by
    have hof := f.ofNumber?_number
    rw [hnumber, g.ofNumber?_number] at hof
    exact (Option.some.inj hof).symm
  subst hfield
  suffices hvalue : Agree h k cs ds f ∧ s = r from ⟨⟨hvalue.1, rfl⟩, hvalue.2⟩
  cases f with
  | kind =>
      obtain ⟨hname, hrest⟩ := cborText_append_inj h.kind.length_name k.kind.length_name heq
      have hkind := h.kind.ofName?_name
      rw [hname, k.kind.ofName?_name] at hkind
      exact ⟨(Option.some.inj hkind).symm, hrest⟩
  | int => exact cborInt_append_inj heq
  | float =>
      exact cborFloat_append_inj (isZero_of_mem_nodeFields hf) (isZero_of_mem_nodeFields hg) heq
  | bool => exact ⟨trivial, List.append_cancel_left heq⟩
  | str => exact cborText_append_inj hstr hstr' heq
  | children => exact array_append_inj hcs hds htrees heq

/-- Nodes with the same fields whose values agree are the same. -/
theorem canonical_eq_of_agree (hfields : nodeFields h.payload cs = nodeFields k.payload ds)
    (hagree : ∀ f ∈ nodeFields h.payload cs, Agree h k cs ds f) :
    Tree.canonical (.node h cs) = Tree.canonical (.node k ds) := by
  have hown : h.payload.fields = k.payload.fields := fields_eq_of_nodeFields hfields
  have hvalue : ∀ f, f ≠ .children → f ∈ h.payload.fields → Agree h k cs ds f :=
    fun f hne hf => hagree f ((mem_nodeFields_iff hne).mpr hf)
  have hkind : h.kind = k.kind := hvalue .kind (by decide) (Payload.mem_fields_iff.mpr rfl)
  have hpayload := Payload.eq_of_fields _ (fun _ => Binary64.canonical_of_isZero) hown
    (hvalue .int (by decide)) (hvalue .float (by decide)) (hvalue .str (by decide))
  have hhead : h.canonical = k.canonical := by
    refine Head.eq_of_payload ?_ ?_
    · rw [h.kind_canonical, k.kind_canonical, hkind]
    · rw [h.payload_canonical, k.payload_canonical, hpayload]
  have hchildren : cs.map Tree.canonical = ds.map Tree.canonical := by
    by_cases hcs : cs = []
    · have hds : ds = [] := by
        by_contra hds
        exact children_mem_nodeFields_iff.mp (hfields ▸ children_mem_nodeFields_iff.mpr hds) hcs
      rw [hcs, hds]
    · exact hagree .children (children_mem_nodeFields_iff.mpr hcs)
  rw [Tree.canonical_node, Tree.canonical_node, hhead, hchildren]

end Values

end Record

namespace Tree

open CborItem Record

theorem bytes_absent_ne_node {h : Head} {cs : List Tree} {s r : Bytes} :
    absent.coded.bytes ++ s ≠ (node h cs).coded.bytes ++ r := by
  have hsmall := length_nodeFields_le h cs
  rw [bytes_node, CborItem.head, if_pos (by omega)]
  intro heq
  have hbyte := congrArg UInt8.toNat (List.cons.inj heq).1
  rw [Wire.toNat_toUInt8 (by omega)] at hbyte
  have hnull : (0xF6 : UInt8).toNat = 246 := rfl
  omega

/-- Trees whose texts and children a word can count are told apart by their bytes. -/
theorem toldApart {t u : Tree} (ht : t.Counted) (hu : u.Counted) : t.ToldApart u := by
  induction t generalizing u with
  | absent =>
      intro s r heq
      cases u with
      | absent => exact ⟨rfl, List.append_cancel_left heq⟩
      | node k ds => exact absurd heq bytes_absent_ne_node
  | node h cs ih =>
      intro s r heq
      cases u with
      | absent => exact absurd heq.symm bytes_absent_ne_node
      | node k ds =>
          obtain ⟨⟨hstr, hcs⟩, hcounts⟩ := eachNode_node_iff.mp ht
          obtain ⟨⟨hstr', hds⟩, hcounts'⟩ := eachNode_node_iff.mp hu
          have htrees : ∀ c ∈ cs, ∀ d ∈ ds, c.ToldApart d :=
            fun c hc d hd => ih c hc (hcounts c hc) (hcounts' d hd)
          have hsmall := length_nodeFields_le h cs
          have hsmall' := length_nodeFields_le k ds
          dsimp only at heq
          rw [bytes_node, bytes_node, List.append_assoc, List.append_assoc] at heq
          obtain ⟨hlength, heq⟩ := head_append_inj (by decide) (by omega) (by omega) heq
          obtain ⟨hall, hrest⟩ := forall₂_of_flatMap
            (fun f hf g hg => cborPair_separates hstr hstr' hcs hds htrees hf hg) hlength heq
          obtain ⟨hagree, hfields⟩ := (List.forall₂_and_left _ _).mp hall
          rw [List.forall₂_eq_eq_eq] at hfields
          exact ⟨canonical_eq_of_agree hfields hagree, hrest⟩

end Tree

namespace Wire

/-- The bytes of a value in one of the forms that are written. -/
def HasForm (b : Bytes) : WireType → Prop
  | .varint => ∃ n, b = varint n
  | .fixed64 => b.length = 8
  | .bytes => ∃ m, b = counted m
  | _ => False

theorem HasForm.append_inj {type : WireType} {a b s r : Bytes} (ha : HasForm a type)
    (hb : HasForm b type) (h : a ++ s = b ++ r) : a = b ∧ s = r := by
  cases type with
  | varint =>
      obtain ⟨m, rfl⟩ := ha
      obtain ⟨n, rfl⟩ := hb
      obtain ⟨rfl, hrest⟩ := varint_append_inj h
      exact ⟨rfl, hrest⟩
  | fixed64 => exact List.append_inj h (ha.trans hb.symm)
  | bytes =>
      obtain ⟨m, rfl⟩ := ha
      obtain ⟨n, rfl⟩ := hb
      obtain ⟨rfl, hrest⟩ := counted_append_inj h
      exact ⟨rfl, hrest⟩
  | _ => cases ha

theorem varint_inj {m n : Nat} (h : varint m = varint n) : m = n :=
  (varint_append_inj (s := []) (t := []) (congrArg (· ++ []) h)).1

theorem counted_inj {a b : Bytes} (h : counted a = counted b) : a = b :=
  (counted_append_inj (s := []) (t := []) (congrArg (· ++ []) h)).1

end Wire

namespace Field

theorem tag_append_inj {f g : Field} {s r : Bytes} (h : f.tag ++ s = g.tag ++ r) :
    f = g ∧ s = r := by
  have hread := f.readTag?_tag s
  rw [h, g.readTag?_tag r] at hread
  simp only [Option.some.injEq, Prod.mk.injEq] at hread
  obtain ⟨hnumber, -, hrest⟩ := hread
  have hfield := f.ofNumber?_number
  rw [← hnumber, g.ofNumber?_number] at hfield
  exact ⟨(Option.some.inj hfield).symm, hrest.symm⟩

end Field

namespace Head

def protoValue (h : Head) : Field → Bytes
  | .kind => Wire.varint h.kind.ordinal
  | .int => Wire.varint (Wire.zigzag h.payload.int.toInt)
  | .float => Wire.littleEndian 8 h.payload.float.bits.toNat
  | .bool => [1]
  | .str => Wire.counted h.payload.str
  | .children => []

/-- The fields of a node, one for each child at the end. -/
def protoEntries (h : Head) (messages : List Bytes) : List (Field × Bytes) :=
  h.payload.fields.map (fun f => (f, h.protoValue f)) ++
    messages.map fun m => (.children, Wire.counted m)

def protoCode (e : Field × Bytes) : Bytes := e.1.tag ++ e.2

theorem flatMap_protoEntries (h : Head) (messages : List Bytes) :
    (h.protoEntries messages).flatMap protoCode =
      h.protoFields ++ messages.flatMap Tree.childField := by
  rw [protoEntries, List.flatMap_append, List.flatMap_map, List.flatMap_map, protoFields,
    Payload.flatMap_fields]
  congr 1
  cases h.payload.float.isZero <;> simp [protoCode, protoValue]

theorem hasForm_of_mem {h : Head} {messages : List Bytes} {e : Field × Bytes}
    (he : e ∈ h.protoEntries messages) : Wire.HasForm e.2 e.1.wireType := by
  rcases List.mem_append.mp he with hown | hchild
  · obtain ⟨f, hf, rfl⟩ := List.mem_map.mp hown
    cases f with
    | kind => exact ⟨_, rfl⟩
    | int => exact ⟨_, rfl⟩
    | float => exact Wire.littleEndian_length 8 _
    | bool => exact ⟨1, rfl⟩
    | str => exact ⟨_, rfl⟩
    | children => exact absurd hf (Payload.children_not_mem_fields _)
  · obtain ⟨m, -, rfl⟩ := List.mem_map.mp hchild
    exact ⟨m, rfl⟩

/-- Fields with the same bytes are the same, and so are their lists. -/
theorem protoEntries_inj {h k : Head} {ms ns : List Bytes}
    (heq : h.protoFields ++ ms.flatMap Tree.childField =
      k.protoFields ++ ns.flatMap Tree.childField) :
    h.protoEntries ms = k.protoEntries ns := by
  have hcode : ∀ e : Field × Bytes, protoCode e ≠ [] := by
    intro e hnil
    have htag := e.1.tag_length
    rw [(List.append_eq_nil_iff.mp hnil).1] at htag
    cases htag
  rw [← flatMap_protoEntries, ← flatMap_protoEntries] at heq
  have hall : List.Forall₂ (· = ·) (h.protoEntries ms) (k.protoEntries ns) := by
    refine forall₂_of_flatMap_eq ?_ (fun e _ => hcode e) (fun e _ => hcode e) heq
    intro e he d hd s r hbytes
    rw [protoCode, protoCode, List.append_assoc, List.append_assoc] at hbytes
    obtain ⟨hfield, hbytes⟩ := Field.tag_append_inj hbytes
    have hform := hasForm_of_mem he
    rw [hfield] at hform
    obtain ⟨hvalue, hrest⟩ := hform.append_inj (hasForm_of_mem hd) hbytes
    exact ⟨Prod.ext hfield hvalue, hrest⟩
  rwa [List.forall₂_eq_eq_eq] at hall

/-- The fields of the node itself and those of its children are told by their numbers. -/
theorem protoEntries_append_inj {h k : Head} {ms ns : List Bytes}
    (heq : h.protoEntries ms = k.protoEntries ns) :
    (h.payload.fields.map fun f => (f, h.protoValue f)) =
        k.payload.fields.map (fun f => (f, k.protoValue f)) ∧ ms = ns := by
  have hown : ∀ (h : Head), ∀ e ∈ h.payload.fields.map (fun f => (f, h.protoValue f)),
      e.1 ≠ .children := by
    intro h e he
    obtain ⟨f, hf, rfl⟩ := List.mem_map.mp he
    rintro rfl
    exact Payload.children_not_mem_fields _ hf
  have hfilter : ∀ (h : Head) (ms : List Bytes), (h.protoEntries ms).filter (·.1 ≠ .children) =
      h.payload.fields.map fun f => (f, h.protoValue f) := by
    intro h ms
    rw [protoEntries, List.filter_append, List.filter_eq_self.mpr (by simpa using hown h),
      List.filter_eq_nil_iff.mpr (by simp), List.append_nil]
  have hfields := hfilter h ms
  rw [heq, hfilter k ns] at hfields
  refine ⟨hfields.symm, ?_⟩
  rw [protoEntries, protoEntries, hfields, List.append_cancel_left_eq] at heq
  refine List.map_injective_iff.mpr ?_ heq
  intro m n hmn
  exact Wire.counted_inj (Prod.ext_iff.mp hmn).2

/-- Zeros are not written, whatever their sign; all else is told by the bytes. -/
theorem plusZero_eq_of_protoValue {h k : Head}
    (heq : (h.payload.fields.map fun f => (f, h.protoValue f)) =
      k.payload.fields.map fun f => (f, k.protoValue f)) : h.plusZero = k.plusZero := by
  have hfields : h.payload.fields = k.payload.fields := by
    have hfirst := congrArg (List.map Prod.fst) heq
    simpa only [List.map_map, Function.comp_def, List.map_id'] using hfirst
  rw [← hfields, List.map_inj_left] at heq
  have hvalue : ∀ f ∈ h.payload.fields, h.protoValue f = k.protoValue f :=
    fun f hf => (Prod.ext_iff.mp (heq f hf)).2
  have hkind : h.kind = k.kind :=
    Kind.ordinal_inj (Wire.varint_inj (hvalue .kind (Payload.mem_fields_iff.mpr rfl)))
  have hpayload := Payload.eq_of_fields Binary64.plusZero (fun x hx => if_pos hx) hfields
    (by
      intro hf
      have hzigzag := congrArg Wire.unzigzag (Wire.varint_inj (hvalue .int hf))
      rw [Wire.unzigzag_zigzag, Wire.unzigzag_zigzag] at hzigzag
      exact Int64.toInt_inj.mp hzigzag)
    (by
      intro hf
      have hbits := Wire.littleEndian_inj (lt_word _) (lt_word _) (hvalue .float hf)
      rw [show h.payload.float = k.payload.float from
        congrArg Binary64.mk (UInt64.toNat_inj.mp hbits)])
    (fun hf => Wire.counted_inj (hvalue .str hf))
  refine eq_of_payload ?_ ?_
  · rw [h.kind_plusZero, k.kind_plusZero, hkind]
  · rw [h.payload_plusZero, k.payload_plusZero, hpayload]

end Head

namespace Tree

theorem message_node_ne_nil (h : Head) (cs : List Tree) : message (.node h cs) ≠ [] := by
  rw [message_node]
  exact List.cons_ne_nil _ _

/-- Messages tell trees apart up to the signs of zeros, missing nodes and NaNs included. -/
theorem message_eq_iff {t u : Tree} : t.message = u.message ↔ t.plusZero = u.plusZero := by
  constructor
  · intro heq
    induction t generalizing u with
    | absent =>
        cases u with
        | absent => rfl
        | node k ds => exact absurd heq.symm (message_node_ne_nil k ds)
    | node h cs ih =>
        cases u with
        | absent => exact absurd heq (message_node_ne_nil h cs)
        | node k ds =>
            rw [message_node, message_node] at heq
            obtain ⟨hown, hmessages⟩ := Head.protoEntries_append_inj (Head.protoEntries_inj heq)
            have hchildren : List.Forall₂ (fun c d => c.message = d.message) cs ds := by
              rwa [← List.forall₂_eq_eq_eq, List.forall₂_map_left_iff,
                List.forall₂_map_right_iff] at hmessages
            rw [plusZero_node, plusZero_node, Head.plusZero_eq_of_protoValue hown,
              map_eq_of_forall₂ hchildren fun c hc d hcd => ih c hc hcd]
  · intro heq
    rw [← t.message_plusZero, heq, u.message_plusZero]

end Tree

end Arbor
