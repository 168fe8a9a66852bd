import Arbor.Proofs.Codec.Canonical
import Arbor.Proofs.Codec.CborItem
import Arbor.Proofs.Tree.Shape

/-! Trees in CBOR are read back unless a node has more children than an array may have items. -/
namespace Arbor

namespace Binary64

/-- The payload of a NaN is not written. -/
theorem cborFloat_canonical {x : Binary64} (hx : x.isZero = false) :
    Record.cborFloat x.canonical = Record.cborFloat x := by
  cases hnan : x.isNaN with
  | true =>
      rw [canonical_of_isNaN hnan, Record.cborFloat, Record.cborFloat, hnan]
      rfl
  | false => rw [canonical_eq_self hx hnan]

end Binary64

namespace Tree

/-- No node has more children than readers let an array have. -/
def Narrow : Tree → Prop := EachNode fun _ cs => cs.length ≤ CborItem.maxCount

/-- The bytes of every text and the children of every node are as many as a word of 64 bits can
count, as those of a tree in memory are. -/
def Counted : Tree → Prop :=
  EachNode fun h cs => h.payload.str.length < 2 ^ 64 ∧ cs.length < 2 ^ 64

end Tree

namespace Kind

theorem length_name (k : Kind) : (Bytes.ofString k.name).length < 2 ^ 64 := by
  cases k <;> decide

end Kind

namespace CborItem

def isScalar : CborItem → Bool
  | array _ => false
  | tag _ _ => false
  | _ => true

theorem int64?_ofInt64 (v : Int64) : (ofInt64 v).int64? = some v := by
  have hlow := v.le_toInt
  have hhigh := v.toInt_lt
  have hinteger : (ofInt64 v).integer? = some v.toInt := by
    unfold ofInt64
    cases h : v.toInt with
    | ofNat n => rfl
    | negSucc n =>
        rw [h] at hlow
        dsimp only
        rw [integer?, if_pos (by omega), Int.negSucc_eq]
        congr 1
        omega
  rw [int64?, hinteger, Option.bind_some, if_pos hhigh, Int64.ofInt_toInt]

theorem text?_text {b : Bytes} (hb : Utf8.isValid b = true) : (text [b]).text? = some b := by
  simp [text?, hb]

end CborItem

namespace Record

open CborItem

variable {kind : Bytes} {p : Payload} {cs : List Coded}

section Entries

def optional (f : Field) (present : Bool) (c : Coded) : List (Field × Coded) :=
  if present then [(f, c)] else []

def entries (kind : Bytes) (p : Payload) (cs : List Coded) : List (Field × Coded) :=
  (.kind, ⟨cborText kind, text [kind]⟩) ::
    (optional .int (p.int ≠ 0) ⟨cborInt p.int, ofInt64 p.int⟩ ++
    (optional .float (!p.float.isZero) ⟨cborFloat p.float, float p.float.canonical⟩ ++
    (optional .bool p.bool ⟨[0xF5], simple 21⟩ ++
    (optional .str (p.str ≠ []) ⟨cborText p.str, text [p.str]⟩ ++
    optional .children (cs ≠ []) (.array cs)))))

theorem length_optional (f : Field) (present : Bool) (c : Coded) :
    (optional f present c).length = if present then 1 else 0 := by
  cases present <;> rfl

theorem flatMap_optional (f : Field) (present : Bool) (c : Coded) :
    (optional f present c).flatMap entryBytes = cborEntry f present c.bytes := by
  cases present with
  | false => rfl
  | true => rw [optional, if_pos rfl, List.flatMap_singleton, entryBytes, cborEntry, if_pos rfl]

theorem bytes_entries : (entries kind p cs).flatMap entryBytes =
    cborEntry .kind true (cborText kind) ++ (cborEntry .int (p.int ≠ 0) (cborInt p.int) ++
      (cborEntry .float (!p.float.isZero) (cborFloat p.float) ++ (cborEntry .bool p.bool [0xF5] ++
        (cborEntry .str (p.str ≠ []) (cborText p.str) ++
          cborEntry .children (cs ≠ []) (Coded.array cs).bytes)))) := by
  simp only [entries, List.flatMap_cons, List.flatMap_append, flatMap_optional]
  rfl

theorem fields_optional (f : Field) (present : Bool) (c : Coded) :
    ((optional f present c).map Prod.fst).Sublist [f] := by
  cases present with
  | false => exact List.nil_sublist _
  | true => exact List.Sublist.refl _

theorem fields_entries : ((entries kind p cs).map Prod.fst).Sublist Field.all := by
  simp only [entries, List.map_cons, List.map_append]
  exact .cons_cons _ ((fields_optional ..).append ((fields_optional ..).append
    ((fields_optional ..).append ((fields_optional ..).append (fields_optional ..)))))

theorem nodup_entries : ((entries kind p cs).map Prod.fst).Nodup :=
  fields_entries.nodup (by decide)

theorem length_entries_le : (entries kind p cs).length ≤ Field.all.length := by
  rw [← List.length_map (f := Prod.fst)]
  exact fields_entries.length_le

theorem forall_mem_optional {q : Field × Coded → Prop} {f : Field} {present : Bool} {c : Coded}
    (h : present = true → q (f, c)) : ∀ e ∈ optional f present c, q e := by
  intro e he
  cases present with
  | false => cases he
  | true =>
      rw [List.mem_singleton.mp he]
      exact h rfl

/-- A property of all entries of a node, one field at a time. -/
theorem forall_mem_entries {q : Field × Coded → Prop}
    (hkind : q (.kind, ⟨cborText kind, text [kind]⟩))
    (hint : q (.int, ⟨cborInt p.int, ofInt64 p.int⟩))
    (hfloat : p.float.isZero = false → q (.float, ⟨cborFloat p.float, float p.float.canonical⟩))
    (hbool : q (.bool, ⟨[0xF5], simple 21⟩)) (hstr : q (.str, ⟨cborText p.str, text [p.str]⟩))
    (hchildren : q (.children, .array cs)) : ∀ e ∈ entries kind p cs, q e := by
  intro e he
  simp only [entries, List.mem_cons, List.mem_append] at he
  rcases he with rfl | he | he | he | he | he
  · exact hkind
  · exact forall_mem_optional (fun _ => hint) e he
  · refine forall_mem_optional (fun hx => hfloat ?_) e he
    simpa using hx
  · exact forall_mem_optional (fun _ => hbool) e he
  · exact forall_mem_optional (fun _ => hstr) e he
  · exact forall_mem_optional (fun _ => hchildren) e he

end Entries

end Record

namespace Tree

open CborItem

/-- The bytes of a tree and the item they are read as. -/
def coded : Tree → Coded :=
  fold ⟨[0xF6], simple 22⟩ fun h cs =>
    .map (Record.entries (Bytes.ofString h.kind.name) h.payload cs)

theorem coded_node (h : Head) (cs : List Tree) : coded (.node h cs) =
    .map (Record.entries (Bytes.ofString h.kind.name) h.payload (cs.map coded)) :=
  fold_node _ _ h cs

theorem bytes_coded_pos (t : Tree) : 0 < t.coded.bytes.length := by
  cases t with
  | absent => exact Nat.one_pos
  | node h cs =>
      rw [coded_node]
      exact Coded.bytes_map_pos _

end Tree

namespace Record

open CborItem

section Writing

variable {kind : Bytes} {p : Payload} {ts : List Tree}

theorem cborCount_eq :
    cborCount p (ts.map ofTree) = (entries kind p (ts.map Tree.coded)).length := by
  simp only [cborCount, entries, List.length_cons, List.length_append, length_optional, ne_eq,
    List.map_eq_nil_iff, decide_eq_true_eq, Bool.not_eq_true']
  cases p.float.isZero <;> simp <;> omega

theorem cborAllOnto_map (rest : Bytes)
    (hts : ∀ t ∈ ts, ∀ rest, (ofTree t).cborOnto rest = t.coded.bytes ++ rest) :
    cborAllOnto rest (ts.map ofTree) = (ts.map Tree.coded).flatMap Coded.bytes ++ rest := by
  induction ts with
  | nil => rfl
  | cons t ts ih =>
      rw [List.map_cons, cborAllOnto, hts t List.mem_cons_self,
        ih fun u hu => hts u (List.mem_cons_of_mem t hu), List.map_cons, List.flatMap_cons,
        List.append_assoc]

theorem cborOnto_ofTree (t : Tree) (rest : Bytes) :
    (ofTree t).cborOnto rest = t.coded.bytes ++ rest := by
  induction t generalizing rest with
  | absent => rfl
  | node h ts ih =>
      have hall := cborAllOnto_map rest ih
      rw [Tree.coded_node, ofTree_node, Coded.map, bytes_entries, cborOnto.eq_def,
        ← cborCount_eq]
      dsimp only
      simp only [List.append_assoc]
      congr 6
      cases ts with
      | nil => rfl
      | cons t ts =>
          rw [List.map_cons, cborAllOnto] at hall
          rw [cborEntry, if_pos (by simp), Coded.array]
          simp only [List.map_cons, hall, List.length_cons, List.length_map, List.append_assoc]

/-- Children with the same bytes, and a number in the form that is read back, change no byte. -/
theorem bytes_map_canonical {kind : Bytes} {p : Payload} {cs ds : List Coded}
    (hbytes : ds.map Coded.bytes = cs.map Coded.bytes) :
    (Coded.map (entries kind { p with float := p.float.canonical } ds)).bytes =
      (Coded.map (entries kind p cs)).bytes := by
  have hlength : ds.length = cs.length := by
    simpa only [List.length_map] using congrArg List.length hbytes
  have hnil : ds ≠ [] ↔ cs ≠ [] := by
    rw [← List.length_pos_iff_ne_nil, hlength, List.length_pos_iff_ne_nil]
  have harray : (Coded.array ds).bytes = (Coded.array cs).bytes := by
    rw [Coded.array, Coded.array, hlength, List.flatMap_def, List.flatMap_def, hbytes]
  have hzero := p.float.isZero_canonical
  -- a zero is left out with its sign
  have hfloat : cborEntry .float (!p.float.isZero) (cborFloat p.float.canonical) =
      cborEntry .float (!p.float.isZero) (cborFloat p.float) := by
    cases hx : p.float.isZero with
    | true => rfl
    | false => rw [Binary64.cborFloat_canonical hx]
  have hentries : (entries kind { p with float := p.float.canonical } ds).flatMap entryBytes =
      (entries kind p cs).flatMap entryBytes := by
    simp only [bytes_entries, hnil, harray, hzero, hfloat]
  have hcount : (entries kind { p with float := p.float.canonical } ds).length =
      (entries kind p cs).length := by
    simp only [entries, List.length_cons, List.length_append, length_optional, hnil, hzero]
  rw [Coded.map, Coded.map, hentries, hcount]

theorem bytes_coded_canonical (t : Tree) : t.canonical.coded.bytes = t.coded.bytes := by
  induction t with
  | absent => rfl
  | node h ts ih =>
      have hbytes : ((ts.map Tree.canonical).map Tree.coded).map Coded.bytes =
          (ts.map Tree.coded).map Coded.bytes := by
        rw [List.map_map, List.map_map, List.map_map]
        exact List.map_congr_left ih
      rw [Tree.canonical_node, Tree.coded_node, Tree.coded_node, h.payload_canonical,
        h.kind_canonical, bytes_map_canonical hbytes]

end Writing

section Reading

theorem reads_entries {height : Nat} {kind : Bytes} {p : Payload} {cs : List Coded}
    (hkind : kind.length < 2 ^ 64) (hstr : p.str.length < 2 ^ 64) (hcount : cs.length < 2 ^ 64)
    (hcs : ∀ c ∈ cs, 0 < c.bytes.length ∧ Reads c height) :
    ∀ e ∈ entries kind p cs, Reads e.2 (height + 1) :=
  forall_mem_entries ((reads_text hkind).mono (Nat.zero_le _))
    ((reads_int p.int).mono (Nat.zero_le _))
    (fun hx => (reads_float hx).mono (Nat.zero_le _)) (reads_true.mono (Nat.zero_le _))
    ((reads_text hstr).mono (Nat.zero_le _)) (reads_array hcount hcs)

/-- The bytes of a tree are read where two levels fit for each of its own. -/
theorem reads_coded {t : Tree} (hsize : t.Counted) {n : Nat} (hlevels : t.levels ≤ n) :
    Reads t.coded (2 * n) := by
  induction t generalizing n with
  | absent =>
      refine .of_succ (by decide) ?_
      intro fuel level rest _ _
      rfl
  | node h ts ih =>
      have hle : ((Tree.node h ts).levels : Int) ≤ n := by exact_mod_cast hlevels
      obtain ⟨hone, hts⟩ := Tree.levels_node_le_iff.mp hle
      obtain ⟨⟨hstr, hcount⟩, hcounts⟩ := Tree.eachNode_node_iff.mp hsize
      obtain ⟨m, rfl⟩ : ∃ m, n = m + 1 := ⟨n - 1, by omega⟩
      -- the array takes one level and the map around it another
      rw [Tree.coded_node]
      refine reads_map (length_entries_le.trans (by decide)) ?_
      refine reads_entries h.kind.length_name hstr (by rwa [List.length_map]) ?_
      intro c hc
      obtain ⟨t, ht, rfl⟩ := List.mem_map.mp hc
      have hlevel := hts t ht
      exact ⟨t.bytes_coded_pos, ih t ht (hcounts t ht) (by omega)⟩

theorem parse?_coded {t : Tree} (hsize : t.Counted)
    (hlevels : 2 * t.levels ≤ maxNesting) : CborItem.parse? t.coded.bytes = t.coded.item? := by
  have hread := reads_coded hsize (Nat.le_refl _) (2 * t.coded.bytes.length + 2) 0 [] (by omega)
    (by omega)
  rw [List.append_nil] at hread
  rw [parse?, hread]
  cases t.coded.item? <;> rfl

end Reading

section Setting

def setEntry (r : Record) (e : Field × Coded) : Option Record := e.2.item?.bind (setField r e.1)

theorem setEntries_eq {es : List (Field × Coded)} {r r' : Record} {seen : List Field}
    (hnodup : (es.map Prod.fst).Nodup) (hseen : ∀ e ∈ es, e.1 ∉ seen)
    (hset : es.foldlM setEntry r = some r') :
    ∃ pairs, es.mapM pair? = some pairs ∧ setEntries r seen pairs = some r' := by
  induction es generalizing r seen with
  | nil => exact ⟨[], rfl, by rw [setEntries]; exact hset⟩
  | cons e es ih =>
      rw [List.map_cons, List.nodup_cons] at hnodup
      rw [List.foldlM_cons] at hset
      obtain ⟨r₁, hr₁, hset⟩ := Option.bind_eq_some_iff.mp hset
      obtain ⟨item, hitem, hfield⟩ := Option.bind_eq_some_iff.mp hr₁
      -- no later entry has this field, so none of them is passed over
      have hseen' : ∀ d ∈ es, d.1 ∉ e.1 :: seen := by
        intro d hd hmem
        rcases List.mem_cons.mp hmem with heq | hmem
        · exact hnodup.1 (heq ▸ List.mem_map_of_mem hd)
        · exact hseen d (List.mem_cons_of_mem e hd) hmem
      obtain ⟨pairs, hpairs, hrest⟩ := ih hnodup.2 hseen' hset
      refine ⟨(.unsigned e.1.number, item) :: pairs, ?_, ?_⟩
      · rw [List.mapM_cons, pair?, hitem, hpairs]
        rfl
      · have hnew : seen.elem e.1 = false := by
          simpa using hseen e List.mem_cons_self
        rw [setEntries]
        simp only [isKey, field?, Field.ofNumber?_number, hnew, hfield]
        exact hrest

variable {k : Bytes} {p : Payload} {rs : List Record} {es : List (Field × Coded)}

theorem setEntry_of_isScalar {r : Record} {f : Field} {b : Bytes} {item : CborItem}
    (hitem : item.isScalar = true) : setEntry r (f, ⟨b, item⟩) = setScalar r f item := by
  rw [setEntry, Option.bind_some]
  cases item with
  | array items => cases hitem
  | tag n item => cases hitem
  | _ => simp only [setField]

theorem set_optional {f : Field} {present : Bool} {c : Coded} {r r' : Record}
    (hskip : present = false → r = r') (hset : present = true → setEntry r (f, c) = some r') :
    (optional f present c ++ es).foldlM setEntry r = es.foldlM setEntry r' := by
  cases present with
  | false =>
      rw [hskip rfl]
      rfl
  | true =>
      rw [optional, if_pos rfl, List.singleton_append, List.foldlM_cons, hset rfl]
      rfl

theorem set_int (hp : p.int = 0) (v : Int64) :
    (optional .int (v ≠ 0) ⟨cborInt v, ofInt64 v⟩ ++ es).foldlM setEntry (.node k p rs) =
      es.foldlM setEntry (.node k { p with int := v } rs) := by
  refine set_optional ?_ ?_
  · intro hv
    have hzero : v = 0 := by simpa using hv
    rw [hzero, ← hp]
  · intro _
    have hscalar : (ofInt64 v).isScalar = true ∧ (ofInt64 v).isNull = false := by
      unfold ofInt64
      cases v.toInt <;> exact ⟨rfl, rfl⟩
    rw [setEntry_of_isScalar hscalar.1, setScalar, hscalar.2, int64?_ofInt64]
    rfl

theorem set_float (hp : p.float = .zero) (x : Binary64) :
    (optional .float (!x.isZero) ⟨cborFloat x, float x.canonical⟩ ++ es).foldlM setEntry
      (.node k p rs) = es.foldlM setEntry (.node k { p with float := x.canonical } rs) := by
  refine set_optional ?_ ?_
  · intro hzero
    rw [Binary64.canonical_of_isZero (by simpa using hzero), ← hp]
  · intro _
    rw [setEntry_of_isScalar rfl]
    rfl

theorem set_bool (hp : p.bool = false) (v : Bool) :
    (optional .bool v ⟨[0xF5], simple 21⟩ ++ es).foldlM setEntry (.node k p rs) =
      es.foldlM setEntry (.node k { p with bool := v } rs) := by
  refine set_optional ?_ ?_
  · intro hv
    rw [hv, ← hp]
  · intro hv
    rw [setEntry_of_isScalar rfl, hv]
    rfl

theorem set_str (hp : p.str = []) {v : Bytes} (hv : Utf8.isValid v = true) :
    (optional .str (v ≠ []) ⟨cborText v, text [v]⟩ ++ es).foldlM setEntry (.node k p rs) =
      es.foldlM setEntry (.node k { p with str := v } rs) := by
  refine set_optional ?_ ?_
  · intro hnil
    have hnil : v = [] := by simpa using hnil
    rw [hnil, ← hp]
  · intro _
    rw [setEntry_of_isScalar rfl, setScalar, text?_text hv]
    rfl

theorem set_children {cs : List Coded} (hcount : cs.length ≤ maxCount) {items : List CborItem}
    (hitems : cs.mapM Coded.item? = some items) (hrs : ofItems items = some rs) :
    (optional .children (cs ≠ []) (.array cs)).foldlM setEntry (.node k p []) =
      some (.node k p rs) := by
  have hset : (optional .children (cs ≠ []) (.array cs) ++ []).foldlM setEntry (.node k p []) =
      List.foldlM setEntry (.node k p rs) [] := by
    refine set_optional ?_ ?_
    · intro hnil
      have hnil : cs = [] := by simpa using hnil
      subst hnil
      obtain rfl : [] = items := Option.some.inj hitems
      rw [ofItems] at hrs
      cases hrs
      rfl
    · intro _
      rw [setEntry, Coded.array, if_pos hcount, hitems, Option.map_some, Option.bind_some, setField,
        if_pos rfl, hrs]
      rfl
  rw [List.append_nil] at hset
  exact hset

/-- The entries of a node set its fields in a blank record. -/
theorem set_entries {kind : Bytes} (hkind : Utf8.isValid kind = true)
    (hstr : Utf8.isValid p.str = true) {cs : List Coded} (hcount : cs.length ≤ maxCount)
    {items : List CborItem} (hitems : cs.mapM Coded.item? = some items)
    (hrs : ofItems items = some rs) :
    (entries kind p cs).foldlM setEntry blank =
      some (.node kind { p with float := p.float.canonical } rs) := by
  have hroot : setEntry blank (.kind, ⟨cborText kind, text [kind]⟩) = some (.node kind {} []) := by
    rw [setEntry_of_isScalar rfl, setScalar, text?_text hkind]
    rfl
  rw [entries, List.foldlM_cons, hroot, Option.bind_eq_bind, Option.bind_some, set_int rfl,
    set_float rfl, set_bool rfl, set_str rfl hstr, set_children hcount hitems hrs]

theorem exists_items {ts : List Tree}
    (hts : ∀ t ∈ ts, ∃ item, t.coded.item? = some item ∧
      ∀ absent, ofItem absent item = some (ofTree t.canonical)) :
    ∃ items, (ts.map Tree.coded).mapM Coded.item? = some items ∧
      ofItems items = some ((ts.map Tree.canonical).map ofTree) := by
  induction ts with
  | nil => exact ⟨[], rfl, by rw [ofItems]; rfl⟩
  | cons t ts ih =>
      obtain ⟨item, hitem, hrecord⟩ := hts t List.mem_cons_self
      obtain ⟨items, hitems, hrecords⟩ := ih fun u hu => hts u (List.mem_cons_of_mem t hu)
      refine ⟨item :: items, ?_, ?_⟩
      · rw [List.map_cons, List.mapM_cons, hitem, hitems]
        rfl
      · rw [ofItems, hrecord, hrecords]
        rfl

/-- The item of a tree without too many children anywhere is that of its record. -/
theorem exists_item {t : Tree} (hcomplete : t.Complete) (ht : t.Narrow)
    (htext : t.EachHead fun h => Utf8.isValid h.payload.str = true) :
    ∃ item, t.coded.item? = some item ∧
      ∀ absent, ofItem absent item = some (ofTree t.canonical) := by
  induction t with
  | absent => cases hcomplete
  | node h ts ih =>
      obtain ⟨hcount, hts⟩ := Tree.eachNode_node_iff.mp ht
      obtain ⟨hh, htexts⟩ := Tree.eachHead_node_iff.mp htext
      obtain ⟨items, hitems, hrecords⟩ := exists_items fun t hmem =>
        ih t hmem (hcomplete.children t hmem) (hts t hmem) (htexts t hmem)
      have hset := set_entries h.kind.isValid_name hh (by rwa [List.length_map]) hitems hrecords
      obtain ⟨pairs, hpairs, hmap⟩ := setEntries_eq nodup_entries (fun _ _ => List.not_mem_nil) hset
      refine ⟨.map pairs, ?_, ?_⟩
      · rw [Tree.coded_node, Coded.map, hpairs]
        rfl
      · intro absent
        rw [ofItem, hmap, Tree.canonical_node, ofTree_node, h.payload_canonical, h.kind_canonical]

theorem mapM_eq_none {α β : Type} {f : α → Option β} {a : α} {l : List α} (ha : a ∈ l)
    (hf : f a = none) : l.mapM f = none := by
  induction l with
  | nil => cases ha
  | cons b l ih =>
      rw [List.mapM_cons]
      rcases List.mem_cons.mp ha with rfl | hmem
      · rw [hf]
        rfl
      · rw [ih hmem]
        cases f b <;> rfl

/-- A tree with too many children somewhere has no item. -/
theorem item?_eq_none {t : Tree} (ht : ¬ t.Narrow) : t.coded.item? = none := by
  induction t with
  | absent => exact absurd (Tree.eachNode_absent _) ht
  | node h ts ih =>
      -- the array is too long itself or holds a tree that is not read
      have harray : (Coded.array (ts.map Tree.coded)).item? = none := by
        by_cases hcount : (ts.map Tree.coded).length ≤ maxCount
        · have hwide : ∃ t ∈ ts, ¬ t.Narrow := by
            rw [List.length_map] at hcount
            by_contra hnone
            push Not at hnone
            exact ht (Tree.eachNode_node_iff.mpr ⟨hcount, hnone⟩)
          obtain ⟨t, hmem, hnarrow⟩ := hwide
          rw [Coded.array, if_pos hcount,
            mapM_eq_none (List.mem_map_of_mem hmem) (ih t hmem hnarrow)]
          rfl
        · rw [Coded.array, if_neg hcount]
      have hsome : ts.map Tree.coded ≠ [] := by
        intro hnil
        rw [hnil] at harray
        cases harray
      have hmem : (Field.children, Coded.array (ts.map Tree.coded)) ∈
          entries (Bytes.ofString h.kind.name) h.payload (ts.map Tree.coded) := by
        simp [entries, optional, hsome]
      rw [Tree.coded_node, Coded.map, mapM_eq_none hmem (by rw [pair?, harray]; rfl)]
      rfl

end Setting

end Record

namespace Codec

open Record

variable {limit indent : Int} {t : Tree}

theorem writeCbor_ofTree (t : Tree) : writeCbor (ofTree t) = t.coded.bytes := by
  rw [writeCbor, cborOnto_ofTree, List.append_nil]

theorem write_cbor (ht : t.validate limit = .ok ())
    (htext : t.EachHead fun h => Utf8.isValid h.payload.str = true) :
    write limit { format := .ok .cbor, indent } t = .ok t.coded.bytes := by
  refine write_eq (by decide) (by decide) ht htext ?_
  rw [writeRecord, writeCbor_ofTree]

theorem head?_coded (t : Tree) : t.coded.bytes.head? ≠ some 0x28 := by
  cases t with
  | absent => decide
  | node h cs =>
      have hle : (entries (Bytes.ofString h.kind.name) h.payload (cs.map Tree.coded)).length ≤ 6 :=
        length_entries_le
      rw [Tree.coded_node, CborItem.Coded.map, CborItem.head, if_pos (by omega)]
      intro hfirst
      have hbyte := congrArg UInt8.toNat (Option.some.inj hfirst)
      rw [Wire.toNat_toUInt8 (by omega)] at hbyte
      have hframe : (0x28 : UInt8).toNat = 40 := rfl
      omega

theorem readRecord?_coded (hlevels : 2 * t.levels ≤ CborItem.maxNesting) (hsize : t.Counted) :
    readRecord? t.coded.bytes .cbor = t.coded.item?.bind ofCbor? := by
  rw [readRecord?, readCbor?, parse?_coded hsize hlevels]

theorem read_narrow (ht : t.validate limit = .ok ()) (hlevels : 2 * t.levels ≤ CborItem.maxNesting)
    (htext : t.EachHead fun h => Utf8.isValid h.payload.str = true) (hsize : t.Counted)
    (hnarrow : t.Narrow) :
    read limit { format := .ok .cbor } t.coded.bytes = .ok t.canonical := by
  obtain ⟨item, hitem, hrecord⟩ := exists_item (Tree.complete_of_validateAt ht) hnarrow htext
  refine read_of_record (by decide) (head?_coded t) (t.canonical_same.validateAt ht) ?_
  rw [readRecord?_coded hlevels hsize, hitem, Option.bind_some, ofCbor?, hrecord]

theorem read_wide (hlevels : 2 * t.levels ≤ CborItem.maxNesting) (hsize : t.Counted)
    (hwide : ¬ t.Narrow) :
    read limit { format := .ok .cbor } t.coded.bytes = .error .encoding := by
  rw [read_eq (by decide) (head?_coded t), readRecord?_coded hlevels hsize, item?_eq_none hwide]
  rfl

theorem levels_le_maxNesting (hdepth : t.depth ≤ 30000) :
    2 * t.levels ≤ CborItem.maxNesting := by
  rw [Tree.depth_eq_levels] at hdepth
  rw [CborItem.maxNesting]
  omega

/-- A valid tree with texts in UTF-8 that is not too deep is written in CBOR. If no node has more
children than readers let an array have, its bytes are read as the same tree up to the signs of
zeros and the payloads of NaNs: the two compare as zero and have the same bytes. If a node has
more, its bytes are not read. -/
theorem read_write_cbor {limit indent : Int} {t : Tree} (ht : t.validate limit = .ok ())
    (hdepth : t.depth ≤ 30000) (htext : t.EachHead fun h => Utf8.isValid h.payload.str = true)
    (hsize : t.Counted) :
    ∃ b, write limit { format := .ok .cbor, indent } t = .ok b ∧
      (t.Narrow → read limit { format := .ok .cbor } b = .ok t.canonical ∧
        t.compare limit t.canonical = .ok 0 ∧
        write limit { format := .ok .cbor, indent } t.canonical = .ok b) ∧
      (¬ t.Narrow → read limit { format := .ok .cbor } b = .error .encoding) := by
  have hlevels := levels_le_maxNesting hdepth
  have hcanonical : t.canonical.validate limit = .ok () := t.canonical_same.validateAt ht
  have htext' : t.canonical.EachHead fun h => Utf8.isValid h.payload.str = true :=
    htext.map fun h hh => by rwa [h.payload_canonical]
  refine ⟨t.coded.bytes, write_cbor ht htext, ?_, read_wide hlevels hsize⟩
  intro hnarrow
  refine ⟨read_narrow ht hlevels htext hsize hnarrow,
    Tree.compare_of_same hcanonical t.canonical_same.symm, ?_⟩
  rw [← bytes_coded_canonical]
  exact write_cbor hcanonical htext'

section Calls

def call (count : Nat) (h : Head) : Tree := .node .invocation (List.replicate count (.node h []))

variable {count : Nat} {h : Head}

theorem validate_call (hcount : 0 < count) (hfamily : h.kind.family = .expression)
    (hleaf : Tree.check h.kind [] = .ok ()) : (call count h).validate 1 = .ok () := by
  refine Tree.validateAt_node_iff.mpr ⟨by decide, Tree.check_eq_ok_iff_fits.mpr ⟨?_, ?_, ?_⟩, ?_⟩
  · rw [List.length_replicate, Kind.admits, Bool.and_eq_true, decide_eq_true_eq]
    exact ⟨hcount, rfl⟩
  · simp [List.mem_replicate]
  · intro p hp
    rw [List.eq_of_mem_replicate (List.fst_mem_of_mem_zipIdx hp)]
    exact hfamily
  · intro c hc
    rw [List.eq_of_mem_replicate hc]
    exact Tree.validateAt_node_iff.mpr ⟨by decide, hleaf, by simp⟩

theorem depth_call : (call count h).depth ≤ 30000 := by
  have hlevels : ((call count h).levels : Int) ≤ (30000 : Nat) := by
    refine Tree.levels_node_le_iff.mpr ⟨by decide, ?_⟩
    intro c hc
    rw [List.eq_of_mem_replicate hc]
    have hone : (Tree.node h []).levels = 1 := rfl
    omega
  rw [Tree.depth_eq_levels]
  exact_mod_cast hlevels

theorem eachNode_call {p : Head → List Tree → Prop}
    (hroot : p .invocation (List.replicate count (.node h []))) (hleaf : p h []) :
    (call count h).EachNode p := by
  refine Tree.eachNode_node_iff.mpr ⟨hroot, ?_⟩
  intro c hc
  rw [List.eq_of_mem_replicate hc]
  exact Tree.eachNode_node_iff.mpr ⟨hleaf, by simp⟩

theorem text_call (hleaf : Utf8.isValid h.payload.str = true) :
    (call count h).EachHead fun h => Utf8.isValid h.payload.str = true :=
  eachNode_call rfl hleaf

theorem counted_call (hcount : count < 2 ^ 64) (hleaf : h.payload.str = []) :
    (call count h).Counted := by
  refine eachNode_call ⟨Nat.two_pow_pos 64, by rwa [List.length_replicate]⟩ ⟨?_, Nat.two_pow_pos 64⟩
  rw [hleaf]
  exact Nat.two_pow_pos 64

theorem narrow_call_iff : (call count h).Narrow ↔ count ≤ CborItem.maxCount := by
  constructor
  · intro hnarrow
    rw [← List.length_replicate (n := count) (a := Tree.node h [])]
    exact (Tree.eachNode_node_iff.mp hnarrow).1
  · intro hle
    exact eachNode_call (by rwa [List.length_replicate]) (Nat.zero_le _)

theorem canonical_call : (call count h).canonical = call count h.canonical := by
  rw [call, Tree.canonical_node, List.map_replicate]
  rfl

end Calls

/-- A call of as many NaNs as readers let an array have. -/
theorem read_write_cbor_call :
    (call 131072 (.float ⟨0xFFF0000000000001⟩)).validate 1 = .ok () ∧
      ∃ b, write 1 { format := .ok .cbor } (call 131072 (.float ⟨0xFFF0000000000001⟩)) = .ok b ∧
        read 1 { format := .ok .cbor } b = .ok (call 131072 (.float .nan)) := by
  have hvalid := @validate_call 131072 (.float ⟨0xFFF0000000000001⟩) (by decide) rfl rfl
  obtain ⟨b, hwrite, hread, -⟩ := @read_write_cbor 1 0 _ hvalid depth_call (text_call rfl)
    (counted_call (by decide) rfl)
  refine ⟨hvalid, b, hwrite, ?_⟩
  rw [(hread (narrow_call_iff.mpr (Nat.le_refl _))).1, canonical_call]
  rfl

/-- A call of one more is written but not read. -/
theorem not_read_call :
    (call 131073 (.identifier [])).validate 1 = .ok () ∧
      (call 131073 (.identifier [])).depth ≤ 30000 ∧
      ((call 131073 (.identifier [])).EachHead fun h => Utf8.isValid h.payload.str = true) ∧
      ∃ b, write 1 { format := .ok .cbor } (call 131073 (.identifier [])) = .ok b ∧
        read 1 { format := .ok .cbor } b = .error .encoding := by
  have hvalid := @validate_call 131073 (.identifier []) (by decide) rfl rfl
  have hwide : ¬ (call 131073 (.identifier [])).Narrow := by
    rw [narrow_call_iff]
    decide
  exact ⟨hvalid, depth_call, text_call rfl, _, write_cbor hvalid (text_call rfl),
    read_wide (levels_le_maxNesting depth_call) (counted_call (by decide) rfl) hwide⟩

end Codec

end Arbor
