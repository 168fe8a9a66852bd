import Arbor.Proofs.Codec.Record
import Arbor.Proofs.Tree.Order

/-! Trees in binary fields are read back bit for bit, except for the sign of a zero. -/
namespace Arbor

namespace Binary64

def plusZero (x : Binary64) : Binary64 := if x.isZero then zero else x

theorem plusZero_same (x : Binary64) : x.plusZero.Same x := by
  unfold plusZero
  split
  next hx => exact .inr (.inl ⟨by decide, hx⟩)
  next hx => exact .inl rfl

theorem isZero_plusZero (x : Binary64) : x.plusZero.isZero = x.isZero := by
  unfold plusZero
  split
  next hx => rw [hx]; rfl
  next hx => rfl

end Binary64

namespace Head

def plusZero : Head → Head
  | float x => float x.plusZero
  | h => h

@[simp] theorem kind_plusZero (h : Head) : h.plusZero.kind = h.kind := by
  cases h <;> rfl

theorem plusZero_same (h : Head) : h.plusZero.Same h := by
  cases h with
  | float x => exact .float x.plusZero_same
  | _ => exact .refl _

theorem payload_plusZero (h : Head) :
    h.plusZero.payload = { h.payload with float := h.payload.float.plusZero } := by
  cases h <;> rfl

theorem protoFields_plusZero (h : Head) : h.plusZero.protoFields = h.protoFields := by
  cases h with
  | float x =>
      by_cases hx : x.isZero
      · have hplus : x.plusZero.isZero := x.isZero_plusZero.trans hx
        simp only [protoFields, plusZero, payload, hx, hplus]
        rfl
      · rw [plusZero, Binary64.plusZero, if_neg hx]
  | _ => rfl

end Head

namespace Tree

/-- The tree, with a plus on every zero; all else stays. -/
def plusZero : Tree → Tree := fold .absent fun h cs => .node h.plusZero cs

theorem plusZero_node (h : Head) (cs : List Tree) :
    plusZero (.node h cs) = .node h.plusZero (cs.map plusZero) :=
  fold_node _ _ h cs

theorem plusZero_same (t : Tree) : t.plusZero.Same t := same_fold Head.plusZero_same t

def childField (message : Bytes) : Bytes := Field.children.tag ++ Wire.counted message

def message : Tree → Bytes := fold [] fun h ms => h.protoFields ++ ms.flatMap childField

theorem message_node (h : Head) (cs : List Tree) :
    message (.node h cs) = h.protoFields ++ (cs.map message).flatMap childField :=
  fold_node _ _ h cs

theorem protoAllOnto_eq {cs : List Tree}
    (hcs : ∀ c ∈ cs, ∀ rest, protoOnto rest c = (c.message.length, c.message ++ rest))
    (rest : Bytes) :
    protoAllOnto rest cs = (((cs.map message).flatMap childField).length,
      (cs.map message).flatMap childField ++ rest) := by
  induction cs with
  | nil => rfl
  | cons c cs ih =>
      rw [protoAllOnto, ih fun e he => hcs e (List.mem_cons_of_mem c he)]
      simp only [hcs c List.mem_cons_self, List.map_cons, List.flatMap_cons, childField,
        Wire.counted, List.append_assoc, List.length_append, Prod.mk.injEq, and_true]
      omega

theorem protoOnto_eq (t : Tree) (rest : Bytes) :
    protoOnto rest t = (t.message.length, t.message ++ rest) := by
  induction t generalizing rest with
  | absent => rfl
  | node h cs ih =>
      rw [protoOnto, protoAllOnto_eq ih, message_node]
      simp only [List.append_assoc, List.length_append]

theorem writeProto_eq (t : Tree) : Codec.writeProto t = t.message := by
  rw [Codec.writeProto, protoOnto_eq, List.append_nil]

theorem message_plusZero (t : Tree) : t.plusZero.message = t.message := by
  induction t with
  | absent => rfl
  | node h cs ih =>
      rw [plusZero_node, message_node, message_node, h.protoFields_plusZero, List.map_map]
      congr 2
      exact List.map_congr_left ih

end Tree

namespace Wire

theorem unzigzag_zigzag (n : Int) : unzigzag (zigzag n) = n := by
  cases n with
  | ofNat n =>
      show unzigzag (2 * n) = n
      rw [unzigzag, if_pos (by omega), Nat.mul_div_cancel_left n (by decide)]
  | negSucc n =>
      show unzigzag (2 * n + 1) = .negSucc n
      rw [unzigzag, if_neg (by omega)]
      omega

theorem zigzag_toInt_lt (v : Int64) : zigzag v.toInt < 2 ^ 64 := by
  have hlow := v.le_toInt
  have hhigh := v.toInt_lt
  cases h : v.toInt with
  | ofNat n =>
      rw [h, Int.ofNat_eq_natCast] at hhigh
      simp only [zigzag]
      omega
  | negSucc n =>
      rw [h] at hlow
      simp only [zigzag]
      omega

theorem readFixed?_littleEndian {n : Nat} (rest : Bytes) (h : n < 256 ^ 8) :
    readFixed? 8 (littleEndian 8 n ++ rest) = some (n, rest) := by
  simp only [readFixed?, splitAt?_append (littleEndian_length 8 n), Option.map_some,
    ofLittleEndian_littleEndian h]

end Wire

namespace Field

theorem tag_length (f : Field) : f.tag.length = 1 := by
  cases f <;> rfl

theorem readTag?_tag (f : Field) (rest : Bytes) :
    Wire.readTag? (f.tag ++ rest) = some (f.number, f.wireType, rest) := by
  rw [Wire.readTag?, tag, Wire.tag, Wire.readVarint?_varint rest (by cases f <;> decide)]
  cases f <;> rfl

end Field

namespace Codec

variable {limit : Int} {depth : Nat}

/-- The fields in `b` turn one draft into another, if there is fuel for them. -/
def Reads (limit : Int) (depth : Nat) (d : Draft) (b : Bytes) (e : Draft) : Prop :=
  ∀ fuel, 2 * b.length < fuel → readFields limit fuel depth d b = .ok e

theorem Reads.nil (d : Draft) : Reads limit depth d [] d := by
  intro fuel _
  cases fuel <;> rfl

theorem readFields_tag (fuel : Nat) (d : Draft) (f : Field) (b : Bytes) :
    readFields limit (fuel + 1) depth d (f.tag ++ b) =
      (if f = .children then do
        let (message, rest) ← wire (Wire.readCounted? b)
        let child ← readMessage limit fuel (depth + 1) message
        readFields limit fuel depth { d with children := child :: d.children } rest
      else do
        let (d, rest) ← readScalar d f b
        readFields limit fuel depth d rest) := by
  have htag := f.tag_length
  rw [readFields, f.readTag?_tag]
  · simp only [wire, bind, Except.bind, f.ofNumber?_number, ne_eq, not_true_eq_false, if_false]
  · intro hnil
    rw [(List.append_eq_nil_iff.mp hnil).1] at htag
    cases htag

/-- One step of reading: a scalar field, then the others. -/
theorem Reads.scalar {f : Field} (hf : f ≠ .children) {d d' e : Draft} {value rest : Bytes}
    (hvalue : readScalar d f (value ++ rest) = .ok (d', rest))
    (hrest : Reads limit depth d' rest e) : Reads limit depth d (f.tag ++ (value ++ rest)) e := by
  intro fuel hfuel
  simp only [List.length_append, f.tag_length] at hfuel
  obtain ⟨fuel, rfl⟩ : ∃ k, fuel = k + 1 := ⟨fuel - 1, by omega⟩
  rw [readFields_tag, if_neg hf, hvalue]
  exact hrest fuel (by omega)

theorem Reads.child {d e : Draft} {message rest : Bytes} {c : Tree}
    (hsize : message.length < 2 ^ 64)
    (hchild : ∀ fuel, 2 * message.length + 1 < fuel →
      readMessage limit fuel (depth + 1) message = .ok c)
    (hrest : Reads limit depth { d with children := c :: d.children } rest e) :
    Reads limit depth d (Tree.childField message ++ rest) e := by
  intro fuel hfuel
  simp only [Tree.childField, Wire.counted, List.length_append, Field.tag_length] at hfuel
  obtain ⟨fuel, rfl⟩ : ∃ k, fuel = k + 1 := ⟨fuel - 1, by omega⟩
  rw [Tree.childField, List.append_assoc, readFields_tag, if_pos rfl,
    Wire.readCounted?_counted rest hsize]
  simp only [wire, bind, Except.bind]
  rw [hchild fuel (by omega)]
  exact hrest fuel (by omega)

theorem Reads.kind {d e : Draft} {rest : Bytes} (k : Kind)
    (hrest : Reads limit depth { d with kind := k.ordinal } rest e) :
    Reads limit depth d (Field.kind.tag ++ (Wire.varint k.ordinal ++ rest)) e := by
  have hordinal : k.ordinal < 15 := by cases k <;> decide
  refine .scalar (by decide) ?_ hrest
  rw [readScalar, Wire.readVarint?_varint rest (by omega)]
  simp only [wire, bind, Except.bind, if_pos hordinal]
  rfl

theorem Reads.int {d e : Draft} {rest : Bytes} (hd : d.payload.int = 0) (v : Int64)
    (hrest : Reads limit depth { d with payload.int := v } rest e) :
    Reads limit depth d
      ((if v ≠ 0 then Field.int.tag ++ Wire.varint (Wire.zigzag v.toInt) else []) ++ rest) e := by
  split
  · rw [List.append_assoc]
    refine .scalar (by decide) ?_ hrest
    rw [readScalar, Wire.readVarint?_varint rest (Wire.zigzag_toInt_lt v)]
    simp only [wire, bind, Except.bind, Wire.unzigzag_zigzag, Int64.ofInt_toInt]
    rfl
  · have hv : v = d.payload.int := by simp_all
    rw [hv] at hrest
    exact hrest

theorem Reads.float {d e : Draft} {rest : Bytes} (hd : d.payload.float = .zero) (x : Binary64)
    (hrest : Reads limit depth { d with payload.float := x.plusZero } rest e) :
    Reads limit depth d
      ((if x.isZero then [] else Field.float.tag ++ Wire.littleEndian 8 x.bits.toNat) ++ rest) e := by
  unfold Binary64.plusZero at hrest
  split
  next hx =>
    rw [if_pos hx, ← hd] at hrest
    exact hrest
  next hx =>
    rw [if_neg hx] at hrest
    rw [List.append_assoc]
    refine .scalar (by decide) ?_ hrest
    rw [readScalar, Wire.readFixed?_littleEndian rest (Head.lt_word x.bits)]
    simp [wire, bind, Except.bind, pure, Except.pure]

theorem Reads.bool {d e : Draft} {rest : Bytes} (hd : d.payload.bool = false) (v : Bool)
    (hrest : Reads limit depth { d with payload.bool := v } rest e) :
    Reads limit depth d ((if v then Field.bool.tag ++ [1] else []) ++ rest) e := by
  cases v with
  | false =>
      rw [← hd] at hrest
      exact hrest
  | true =>
      simp only [if_true]
      rw [List.append_assoc]
      exact .scalar (by decide) rfl hrest

theorem Reads.str {d e : Draft} {rest : Bytes} (hd : d.payload.str = []) (v : Bytes)
    (hsize : v.length < 2 ^ 64) (hrest : Reads limit depth { d with payload.str := v } rest e) :
    Reads limit depth d ((if v ≠ [] then Field.str.tag ++ Wire.counted v else []) ++ rest) e := by
  split
  · rw [List.append_assoc]
    refine .scalar (by decide) ?_ hrest
    rw [readScalar, Wire.readCounted?_counted rest hsize]
    rfl
  · have hv : v = d.payload.str := by simp_all
    rw [hv] at hrest
    exact hrest

/-- The fields of a node other than its children set its kind and its payload. -/
theorem Reads.head {e : Draft} {rest : Bytes} (h : Head) (hsize : h.payload.str.length < 2 ^ 64)
    (hrest : Reads limit depth { kind := h.kind.ordinal, payload := h.plusZero.payload } rest e) :
    Reads limit depth {} (h.protoFields ++ rest) e := by
  rw [h.payload_plusZero] at hrest
  simp only [Head.protoFields, List.append_assoc]
  exact .kind _ (.int rfl _ (.float rfl _ (.bool rfl _ (.str rfl _ hsize hrest))))

theorem Reads.children {d : Draft} {cs : List Tree}
    (hsize : ((cs.map Tree.message).flatMap Tree.childField).length < 2 ^ 64)
    (hcs : ∀ c ∈ cs, c.message.length < 2 ^ 64 → ∀ fuel, 2 * c.message.length + 1 < fuel →
      readMessage limit fuel (depth + 1) c.message = .ok c.plusZero) :
    Reads limit depth d ((cs.map Tree.message).flatMap Tree.childField)
      { d with children := (cs.map Tree.plusZero).reverse ++ d.children } := by
  induction cs generalizing d with
  | nil => exact .nil d
  | cons c cs ih =>
      simp only [List.map_cons, List.flatMap_cons, List.length_append] at hsize ⊢
      have hmessage : c.message.length < 2 ^ 64 := by
        simp only [Tree.childField, Wire.counted, List.length_append] at hsize
        omega
      refine .child hmessage (hcs c List.mem_cons_self hmessage) ?_
      have hrest := ih (d := { d with children := c.plusZero :: d.children }) (by omega)
        fun e he => hcs e (List.mem_cons_of_mem c he)
      simpa only [List.reverse_cons, List.append_assoc, List.singleton_append] using hrest

theorem Draft.tree_eq {h : Head} {cs : List Tree} (hcheck : Tree.check h.kind cs = .ok ()) :
    Draft.tree { kind := h.kind.ordinal, payload := h.payload, children := cs.reverse } =
      .ok (.node h cs) := by
  have hkind : Kind.ofOrdinal? h.kind.ordinal = some h.kind := by
    cases h.kind <;> rfl
  simp only [Draft.tree, Tree.build, hkind, Tree.ofKind, List.reverse_reverse, hcheck,
    Head.ofPayload_payload]
  rfl

theorem str_length_le (h : Head) : h.payload.str.length ≤ h.protoFields.length := by
  by_cases hstr : h.payload.str = []
  · rw [hstr]
    exact Nat.zero_le _
  · simp only [Head.protoFields, List.length_append, if_pos hstr, Wire.counted]
    omega

theorem readMessage_message {t : Tree} (ht : t.validateAt limit depth = .ok ())
    (hsize : t.message.length < 2 ^ 64) {fuel : Nat} (hfuel : 2 * t.message.length + 1 < fuel) :
    readMessage limit fuel depth t.message = .ok t.plusZero := by
  induction t generalizing depth fuel with
  | absent => exact absurd ht Tree.not_validateAt_absent
  | node h cs ih =>
      obtain ⟨hdepth, hcheck, hcs⟩ := Tree.validateAt_node_iff.mp ht
      obtain ⟨fuel, rfl⟩ : ∃ k, fuel = k + 1 := ⟨fuel - 1, by omega⟩
      have hstr := str_length_le h
      rw [Tree.message_node] at hsize hfuel ⊢
      simp only [List.length_append] at hsize hfuel
      have hchildren : Reads limit depth { kind := h.kind.ordinal, payload := h.plusZero.payload }
          ((cs.map Tree.message).flatMap Tree.childField)
          { kind := h.kind.ordinal, payload := h.plusZero.payload,
            children := (cs.map Tree.plusZero).reverse ++ [] } :=
        .children (by omega) fun c hc hmessage fuel hfuel => ih c hc (hcs c hc) hmessage hfuel
      -- The fields are read in the order in which they are written, the children last.
      have hfields := hchildren.head h (by omega) fuel (by simp only [List.length_append]; omega)
      have hcheck' : Tree.check h.plusZero.kind (cs.map Tree.plusZero) = .ok () := by
        rw [Head.kind_plusZero, ← hcheck]
        apply Tree.check_congr
        rw [List.map_map]
        exact List.map_congr_left fun c _ => c.plusZero_same.kind?
      have htree := Draft.tree_eq hcheck'
      rw [Head.kind_plusZero] at htree
      rw [readMessage, Tree.checkDepth_eq_ok_iff.mpr hdepth, hfields, Tree.plusZero_node, ← htree,
        List.append_nil]
      rfl

theorem readProto_writeProto {t : Tree} (ht : t.validate limit = .ok ())
    (hsize : (writeProto t).length < 2 ^ 64) :
    readProto limit (writeProto t) = .ok t.plusZero := by
  rw [Tree.writeProto_eq] at hsize ⊢
  exact readMessage_message ht hsize (by omega)

/-- No message is taken for a compressed frame. -/
theorem unwrapWith_message {z : Zstd.Coder} {t : Tree} (ht : t.Complete) :
    unwrapWith z false t.message = .ok t.message := by
  cases t with
  | absent => cases ht
  | node h cs =>
      have hplain : Zstd.magic.isPrefixOf (Tree.message (.node h cs)) = false := by
        rw [Tree.message_node]
        rfl
      rw [unwrapWith, hplain]
      rfl

theorem write_proto {indent : Int} {t : Tree} (ht : t.validate limit = .ok ()) :
    write limit { format := .ok .proto, indent } t = .ok (writeProto t) := by
  rw [write, writeWith, ht]
  rfl

theorem read_proto {t : Tree} (ht : t.Complete) :
    read limit { format := .ok .proto } (writeProto t) = readProto limit (writeProto t) := by
  rw [read, readWith, Tree.writeProto_eq, unwrapWith_message ht]
  rfl

/-- A valid tree is written, and its bytes are read as the same tree up to the signs of zeros: the
two compare as zero and have the same bytes. Lengths on the wire are words of 64 bits. -/
theorem read_write_proto {limit indent : Int} {t : Tree} (ht : t.validate limit = .ok ())
    (hsize : (writeProto t).length < 2 ^ 64) :
    ∃ b, write limit { format := .ok .proto, indent } t = .ok b ∧
      read limit { format := .ok .proto } b = .ok t.plusZero ∧
      t.compare limit t.plusZero = .ok 0 ∧
      write limit { format := .ok .proto, indent } t.plusZero = .ok b := by
  have hplus : t.plusZero.validate limit = .ok () := t.plusZero_same.validateAt ht
  refine ⟨writeProto t, write_proto ht, ?_, ?_, ?_⟩
  · rw [read_proto (Tree.complete_of_validateAt ht), readProto_writeProto ht hsize]
  · exact Tree.compare_of_same hplus t.plusZero_same.symm
  · rw [write_proto hplus, Tree.writeProto_eq, Tree.writeProto_eq, t.message_plusZero]

/-- A block with the least integer, a negative zero, a signalling NaN, a text that is not UTF-8 and
a trailing operator. -/
theorem read_write_proto_block :
    let block (zero : Binary64) := Tree.node .block [
      .node .expression [.node (.integer (-9223372036854775808)) []],
      .node .expression [.node .invocation [.node (.identifier [0xFF, 0xC0]) [],
        .node (.float zero) [], .node (.float ⟨0xFFF0000000000001⟩) []]],
      .node .expression [.node (.unary [0x2B, 0x2B] true) [.node (.boolean true) []]]]
    (block ⟨0x8000000000000000⟩).validate 3 = .ok () ∧
      ∃ b, write 3 { format := .ok .proto } (block ⟨0x8000000000000000⟩) = .ok b ∧
        read 3 { format := .ok .proto } b = .ok (block .zero) := by
  intro block
  have hvalid : (block ⟨0x8000000000000000⟩).validate 3 = .ok () := rfl
  have hsize : (writeProto (block ⟨0x8000000000000000⟩)).length < 2 ^ 64 := by decide
  obtain ⟨b, hwrite, hread, -⟩ := read_write_proto hvalid hsize
  exact ⟨hvalid, b, hwrite, hread⟩

end Codec

end Arbor
