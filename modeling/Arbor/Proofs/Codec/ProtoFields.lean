import Arbor.Proofs.Codec.Proto
import Arbor.Proofs.Wire.Grammar

/-! A message is what its fields say one after another, without fuel and places. -/
namespace Arbor

theorem Field.number_of_ofNumber? {f : Field} {number : Nat} (h : ofNumber? number = some f) :
    f.number = number := by
  have hfound := List.find?_some h
  exact_mod_cast of_decide_eq_true hfound

theorem Field.isTag (f : Field) : Wire.IsTag f.number f.wireType f.tag := by
  have hread := f.readTag?_tag []
  rw [List.append_nil] at hread
  exact Wire.isTag_of_read hread

namespace Codec

open Wire

inductive Item where
  | kind (n : Nat)
  | int (v : Int64)
  | float (x : Binary64)
  | bool (v : Bool)
  | str (s : Bytes)
  | child (t : Tree)
  | other

namespace Draft

def take (d : Draft) : Item → Draft
  | .kind n => { d with kind := n }
  | .int v => { d with payload.int := v }
  | .float x => { d with payload.float := x }
  | .bool v => { d with payload.bool := v }
  | .str s => { d with payload.str := s }
  | .child t => { d with children := t :: d.children }
  | .other => d

end Draft

section Scalars

/-- The values of the fields besides the children. Only kinds have to be in a range. -/
inductive IsScalar : Field → Bytes → Item → Prop
  | kind {n : Nat} {b : Bytes} : IsVarint n b → n < 15 → IsScalar .kind b (.kind n)
  | int {n : Nat} {b : Bytes} : IsVarint n b → IsScalar .int b (.int (Int64.ofInt (unzigzag n)))
  | float {b : Bytes} : b.length = 8 → IsScalar .float b (.float ⟨(ofLittleEndian b).toUInt64⟩)
  | bool {n : Nat} {b : Bytes} : IsVarint n b → IsScalar .bool b (.bool (n ≠ 0))
  | str {s b : Bytes} : IsCounted s b → IsScalar .str b (.str s)

variable {f : Field} {b rest : Bytes} {d e : Draft} {i : Item}

theorem IsScalar.isValue (h : IsScalar f b i) (nest : Nat) :
    IsValue nest f.number f.wireType b := by
  cases h with
  | kind hn _ => exact .varint hn
  | int hn => exact .varint hn
  | float hlength => exact .fixed64 hlength
  | bool hn => exact .varint hn
  | str hs => exact .bytes hs

theorem IsScalar.ne_children (h : IsScalar f b i) : f ≠ .children := by
  cases h <;> decide

theorem wire_eq_ok_iff {α : Type} {o : Option α} {a : α} : wire o = .ok a ↔ o = some a := by
  cases o <;> simp [wire]

/-- A field that takes all values of a form is read as its value is. -/
theorem wire_read_eq_ok_iff {α : Type} {read : Bytes → Option (α × Bytes)} {form : α → Bytes → Prop}
    (hread : Takes read form) (item : α → Item) :
    (do let (a, rest) ← wire (read b); return (d.take (item a), rest)) = .ok (e, rest) ↔
      ∃ v a, b = v ++ rest ∧ form a v ∧ e = d.take (item a) := by
  simp only [bind_eq_ok_iff, wire_eq_ok_iff, Prod.exists]
  constructor
  · rintro ⟨a, tail, hb, h⟩
    cases h
    obtain ⟨v, rfl, hv⟩ := hread.mp hb
    exact ⟨v, a, rfl, hv, rfl⟩
  · rintro ⟨v, a, rfl, hv, rfl⟩
    exact ⟨a, rest, hread.mpr ⟨v, rfl, hv⟩, rfl⟩

/-- A scalar field is read exactly if its value has the form of the field and is in range. -/
theorem readScalar_eq_ok_iff (hf : f ≠ .children) :
    readScalar d f b = .ok (e, rest) ↔
      ∃ v i, b = v ++ rest ∧ IsScalar f v i ∧ e = d.take i := by
  cases f with
  | kind =>
      simp only [readScalar, bind_eq_ok_iff, wire_eq_ok_iff, Prod.exists, readVarint?_eq_some_iff]
      constructor
      · rintro ⟨n, tail, ⟨v, rfl, hv⟩, h⟩
        split at h
        next hn =>
          cases h
          exact ⟨v, _, rfl, .kind hv hn, rfl⟩
        next => cases h
      · rintro ⟨v, i, rfl, hi, rfl⟩
        cases hi with
        | kind hv hn => exact ⟨_, rest, ⟨v, rfl, hv⟩, if_pos hn⟩
  | int =>
      refine (wire_read_eq_ok_iff readVarint?_eq_some_iff
        fun n => .int (Int64.ofInt (unzigzag n))).trans ⟨?_, ?_⟩
      · rintro ⟨v, n, rfl, hv, rfl⟩
        exact ⟨v, _, rfl, .int hv, rfl⟩
      · rintro ⟨v, i, rfl, hi, rfl⟩
        cases hi with
        | int hv => exact ⟨v, _, rfl, hv, rfl⟩
  | float =>
      refine (wire_read_eq_ok_iff readFixed?_eq_some_iff
        fun n => .float ⟨n.toUInt64⟩).trans ⟨?_, ?_⟩
      · rintro ⟨v, n, rfl, ⟨hv, rfl⟩, rfl⟩
        exact ⟨v, _, rfl, .float hv, rfl⟩
      · rintro ⟨v, i, rfl, hi, rfl⟩
        cases hi with
        | float hv => exact ⟨v, _, rfl, ⟨hv, rfl⟩, rfl⟩
  | bool =>
      refine (wire_read_eq_ok_iff readVarint?_eq_some_iff fun n => .bool (n ≠ 0)).trans ⟨?_, ?_⟩
      · rintro ⟨v, n, rfl, hv, rfl⟩
        exact ⟨v, _, rfl, .bool hv, rfl⟩
      · rintro ⟨v, i, rfl, hi, rfl⟩
        cases hi with
        | bool hv => exact ⟨v, _, rfl, hv, rfl⟩
  | str =>
      refine (wire_read_eq_ok_iff readCounted?_eq_some_iff fun s => .str s).trans ⟨?_, ?_⟩
      · rintro ⟨v, s, rfl, hv, rfl⟩
        exact ⟨v, _, rfl, .str hv, rfl⟩
      · rintro ⟨v, i, rfl, hi, rfl⟩
        cases hi with
        | str hv => exact ⟨v, _, rfl, hv, rfl⟩
  | children => exact absurd rfl hf

end Scalars

section Fields

variable {limit : Int} {depth fuel : Nat} {d : Draft} {b rest : Bytes}

/-- The tree of a message at a depth, whatever fuel there is as long as it suffices. -/
def Denotes (limit : Int) (depth : Nat) (b : Bytes) (t : Tree) : Prop :=
  ∀ fuel, 2 * b.length + 1 < fuel → readMessage limit fuel depth b = .ok t

/-- What a field of a message at a depth says. Fields with unknown numbers say nothing, but must be
well formed. -/
inductive Tells (limit : Int) (depth : Nat) : Nat → Bytes → Item → Prop
  | scalar {f : Field} {tag value : Bytes} {i : Item} :
      IsTag f.number f.wireType tag → IsScalar f value i →
      Tells limit depth f.number (tag ++ value) i
  | child {tag value message : Bytes} {t : Tree} :
      IsTag Field.children.number .bytes tag → IsCounted message value →
      Denotes limit (depth + 1) message t →
      Tells limit depth Field.children.number (tag ++ value) (.child t)
  | other {number : Nat} {type : WireType} {tag value : Bytes} :
      Field.ofNumber? number = none → IsTag number type tag →
      IsValue (maxGroups + 1) number type value →
      Tells limit depth number (tag ++ value) .other

structure ReadField (limit : Int) (depth : Nat) where
  field : WireField (maxGroups + 1)
  item : Item
  tells : Tells limit depth field.number field.bytes item

theorem Tells.exists_value {number : Nat} {i : Item} (h : Tells limit depth number b i) :
    ∃ type tag value, IsTag number type tag ∧ IsValue (maxGroups + 1) number type value ∧
      b = tag ++ value := by
  cases h with
  | scalar htag hvalue => exact ⟨_, _, _, htag, hvalue.isValue _, rfl⟩
  | child htag hcounted _ => exact ⟨_, _, _, htag, .bytes hcounted, rfl⟩
  | other _ htag hvalue => exact ⟨_, _, _, htag, hvalue, rfl⟩

def Tells.readField {number : Nat} {i : Item} (h : Tells limit depth number b i) :
    ReadField limit depth :=
  ⟨⟨number, b, h.exists_value⟩, i, h⟩

/-- One step of reading takes one field, whatever follows it. -/
theorem Tells.read {number : Nat} {i : Item} (h : Tells limit depth number b i)
    (hfuel : 2 * b.length ≤ fuel + 1) :
    readFields limit (fuel + 1) depth d (b ++ rest) =
      readFields limit fuel depth (d.take i) rest := by
  have hnil : b ++ rest ≠ [] :=
    fun hnil => h.readField.field.bytes_ne_nil (List.append_eq_nil_iff.mp hnil).1
  cases h with
  | @scalar f tag value i htag hvalue =>
      have htag' := readTag?_eq_some_iff.mpr ⟨tag, List.append_assoc tag value rest, htag⟩
      have hscalar : readScalar d f (value ++ rest) = .ok (d.take i, rest) :=
        (readScalar_eq_ok_iff hvalue.ne_children).mpr ⟨value, i, rfl, hvalue, rfl⟩
      rw [readFields, htag']
      · simp only [wire, bind, Except.bind, f.ofNumber?_number, ne_eq, not_true_eq_false, if_false,
          if_neg hvalue.ne_children, hscalar]
      · exact hnil
  | @child tag value message t htag hcounted hmessage =>
      have htag' := readTag?_eq_some_iff.mpr ⟨tag, List.append_assoc tag value rest, htag⟩
      have hvalue : readCounted? (value ++ rest) = some (message, rest) :=
        readCounted?_eq_some_iff.mpr ⟨value, rfl, hcounted⟩
      have hpos := htag.length_pos
      obtain ⟨lead, hlead, rfl⟩ := hcounted
      have hpos' := hlead.length_pos
      simp only [List.length_append] at hfuel
      have hchild := hmessage fuel (by omega)
      rw [readFields, htag']
      · simp only [wire, bind, Except.bind, Field.ofNumber?_number, Field.wireType, ne_eq,
          not_true_eq_false, if_false, if_true, hvalue, hchild]
        rfl
      · exact hnil
  | @other _ type tag value hnone htag hvalue =>
      have htag' := readTag?_eq_some_iff.mpr ⟨tag, List.append_assoc tag value rest, htag⟩
      have hskip := (skip_of_isValue (2 * (value ++ rest).length + 2)).1 hvalue (Nat.zero_add _)
        (by rw [List.length_append]; omega) rest
      rw [readFields, htag']
      · simp only [wire, bind, Except.bind, hnone, hskip]
        rfl
      · exact hnil

def draftOf (d : Draft) (ps : List (ReadField limit depth)) : Draft :=
  ps.foldl (fun d p => d.take p.item) d

def bytesOf (ps : List (ReadField limit depth)) : Bytes := join (ps.map ReadField.field)

theorem readFields_bytesOf (ps : List (ReadField limit depth))
    (hfuel : 2 * (bytesOf ps).length < fuel) (d : Draft) :
    readFields limit fuel depth d (bytesOf ps) = .ok (draftOf d ps) := by
  induction ps generalizing fuel d with
  | nil => cases fuel <;> rfl
  | cons p ps ih =>
      have hpos : 0 < p.field.bytes.length := List.length_pos_iff.mpr p.field.bytes_ne_nil
      rw [bytesOf, List.map_cons, join_cons] at hfuel ⊢
      rw [List.length_append] at hfuel
      obtain ⟨fuel, rfl⟩ : ∃ k, fuel = k + 1 := ⟨fuel - 1, by omega⟩
      rw [p.tells.read (by omega)]
      exact ih (by rw [bytesOf]; omega) (d.take p.item)

theorem denotes_of_fields (hdepth : Tree.checkDepth limit depth = .ok ())
    {ps : List (ReadField limit depth)} {t : Tree} (ht : (draftOf {} ps).tree = .ok t) :
    Denotes limit depth (bytesOf ps) t := by
  intro fuel hfuel
  obtain ⟨fuel, rfl⟩ : ∃ k, fuel = k + 1 := ⟨fuel - 1, by omega⟩
  rw [readMessage, hdepth, readFields_bytesOf ps (by omega)]
  exact ht

/-- Whatever is read is a sequence of fields. -/
theorem exists_fields (fuel : Nat) :
    (∀ {depth : Nat} {b : Bytes} {t : Tree}, readMessage limit fuel depth b = .ok t →
      Tree.checkDepth limit depth = .ok () ∧
        ∃ ps : List (ReadField limit depth), bytesOf ps = b ∧ (draftOf {} ps).tree = .ok t) ∧
    ∀ {depth : Nat} {d e : Draft} {b : Bytes}, readFields limit fuel depth d b = .ok e →
      ∃ ps : List (ReadField limit depth), bytesOf ps = b ∧ draftOf d ps = e := by
  induction fuel with
  | zero =>
      constructor
      · intro depth b t h
        cases h
      · intro depth d e b h
        cases b with
        | nil => exact ⟨[], rfl, Except.ok.inj h⟩
        | cons c b => cases h
  | succ fuel ih =>
      obtain ⟨ihmessage, ihfields⟩ := ih
      constructor
      · intro depth b t h
        rw [readMessage, check_bind_eq_ok_iff, mapError_eq_ok_iff] at h
        obtain ⟨hdepth, h⟩ := h
        obtain ⟨e, hfields, htree⟩ := bind_eq_ok_iff.mp h
        obtain ⟨ps, hbytes, rfl⟩ := ihfields hfields
        exact ⟨hdepth, ps, hbytes, htree⟩
      · intro depth d e b h
        -- one field in front of those that follow it
        have hcons : ∀ {number : Nat} {front rest : Bytes} {i : Item},
            Tells limit depth number front i → readFields limit fuel depth (d.take i) rest = .ok e →
            ∃ ps : List (ReadField limit depth), bytesOf ps = front ++ rest ∧ draftOf d ps = e := by
          intro number front rest i htells hrest
          obtain ⟨ps, rfl, hdraft⟩ := ihfields hrest
          exact ⟨htells.readField :: ps, rfl, hdraft⟩
        cases b with
        | nil => exact ⟨[], rfl, Except.ok.inj h⟩
        | cons c b =>
            simp only [readFields, bind_eq_ok_iff, wire_eq_ok_iff, Prod.exists,
              readTag?_eq_some_iff] at h
            obtain ⟨number, type, tail, ⟨tag, hbytes, htag⟩, h⟩ := h
            rw [hbytes]
            cases hfield : Field.ofNumber? number with
            | none =>
                simp only [hfield, bind_eq_ok_iff, wire_eq_ok_iff] at h
                obtain ⟨rest, hskip, h⟩ := h
                obtain ⟨value, rfl, hvalue⟩ := (isValue_of_skip _).1 (Nat.zero_add _) hskip
                rw [← List.append_assoc]
                exact hcons (.other hfield htag hvalue) h
            | some f =>
                obtain rfl : f.number = number := Field.number_of_ofNumber? hfield
                simp only [hfield] at h
                split at h
                next => cases h
                next htype =>
                  obtain rfl : type = f.wireType := not_not.mp htype
                  split at h
                  next hchildren =>
                    subst hchildren
                    simp only [bind_eq_ok_iff, wire_eq_ok_iff, Prod.exists,
                      readCounted?_eq_some_iff] at h
                    obtain ⟨message, rest, ⟨value, rfl, hcounted⟩, t, hmessage, h⟩ := h
                    obtain ⟨hdepth, ps, rfl, htree⟩ := ihmessage hmessage
                    rw [← List.append_assoc]
                    exact hcons (.child htag hcounted (denotes_of_fields hdepth htree)) h
                  next hchildren =>
                    obtain ⟨⟨d', rest⟩, hread, h⟩ := bind_eq_ok_iff.mp h
                    obtain ⟨value, i, rfl, hvalue, rfl⟩ :=
                      (readScalar_eq_ok_iff hchildren).mp hread
                    rw [← List.append_assoc]
                    exact hcons (.scalar htag hvalue) h

/-- A message is read exactly if it is a sequence of fields that make a tree. -/
theorem denotes_iff {t : Tree} : Denotes limit depth b t ↔
    Tree.checkDepth limit depth = .ok () ∧
      ∃ ps : List (ReadField limit depth), bytesOf ps = b ∧ (draftOf {} ps).tree = .ok t := by
  constructor
  · intro h
    exact (exists_fields _).1 (h (2 * b.length + 2) (by omega))
  · rintro ⟨hdepth, ps, rfl, ht⟩
    exact denotes_of_fields hdepth ht

/-- The fuel that readers start with suffices. -/
theorem readProto_eq_ok_iff {t : Tree} : readProto limit b = .ok t ↔ Denotes limit 0 b t := by
  constructor
  · intro h
    exact denotes_iff.mpr ((exists_fields _).1 h)
  · intro h
    exact h _ (by omega)

end Fields

end Codec

end Arbor
