import Arbor.Proofs.Codec.Cbor
import Arbor.Proofs.Codec.Json
import Arbor.Proofs.Codec.Toml
import Arbor.Proofs.Codec.Xml
import Arbor.Proofs.Codec.Yaml
import Arbor.Proofs.Zstd.Frame

/-! No format begins a tree like a frame, for every coder that follows the rules of frames. -/
namespace Arbor

namespace Codec

open Record

section Start

variable {limit indent : Int} {t : Tree} {b : Bytes}

/-- A first byte with which no frame begins. -/
def PlainStart (b : Bytes) : Prop := ∃ c, b.head? = some c ∧ c ≠ 0x28 ∧ c / 16 ≠ 5

theorem PlainStart.not_startsFrame (hb : PlainStart b) : ¬ Zstd.StartsFrame b := by
  obtain ⟨c, hhead, hmagic, hskip⟩ := hb
  rintro (⟨rest, rfl⟩ | ⟨m, hm, rest, rfl⟩)
  · cases hhead
    exact hmagic rfl
  · cases hhead
    exact hskip hm

theorem PlainStart.ne_nil (hb : PlainStart b) : b ≠ [] := by
  rintro rfl
  obtain ⟨c, hhead, -⟩ := hb
  cases hhead

theorem plainStart_coded (ht : t.Complete) : PlainStart t.coded.bytes := by
  cases ht with
  | @node h cs hcs =>
      have hle : (entries (Bytes.ofString h.kind.name) h.payload (cs.map Tree.coded)).length ≤ 6 :=
        length_entries_le
      rw [Tree.coded_node, CborItem.Coded.map, CborItem.head, if_pos (by omega)]
      generalize (entries _ _ (cs.map Tree.coded)).length = n at hle
      have hbyte : (32 * 5 + n).toUInt8.toNat = 32 * 5 + n := Wire.toNat_toUInt8 (by omega)
      refine ⟨(32 * 5 + n).toUInt8, rfl, ?_, ?_⟩
      · rw [ne_eq, ← UInt8.toNat_inj, hbyte]
        exact Nat.ne_of_gt (by omega : 40 < 32 * 5 + n)
      · rw [ne_eq, ← UInt8.toNat_inj, UInt8.toNat_div, hbyte]
        exact Nat.ne_of_gt (by omega : 5 < (32 * 5 + n) / 16)

theorem plainStart_message (ht : t.Complete) : PlainStart t.message := by
  cases ht with
  | node =>
      rw [Tree.message_node]
      exact ⟨8, rfl, by decide, by decide⟩

/-- No format begins a tree like a frame. -/
theorem plainStart_writeValid {format : Except FormatError Format} (ht : t.Complete)
    (hb : writeValid { format, indent } t = .ok b) : PlainStart b := by
  rw [writeValid] at hb
  split at hb
  next =>
    cases hb
    rw [Tree.writeProto_eq]
    exact plainStart_message ht
  next =>
    obtain ⟨-, hb⟩ := check_bind_eq_ok_iff.mp hb
    obtain ⟨f, -, hb⟩ := bind_eq_ok_iff.mp hb
    cases f with
    | json =>
        cases hjson : writeJson? indent (ofTree t) with
        | none => simp [writeRecord, hjson, encoded] at hb
        | some d =>
            obtain ⟨-, -, rfl⟩ := writeJson?_ofTree_eq_some_iff.mp hjson
            simp only [writeRecord, hjson, encoded, Except.ok.injEq] at hb
            subst hb
            exact ⟨123, head?_jsonBytes ht, by decide, by decide⟩
    | yaml =>
        cases hb
        exact ⟨107, head?_writeYaml ht, by decide, by decide⟩
    | toml =>
        cases hb
        exact ⟨107, head?_writeToml ht indent, by decide, by decide⟩
    | xml =>
        cases hb
        exact ⟨60, head?_xmlHeader _, by decide, by decide⟩
    | cbor =>
        cases hb
        rw [writeCbor_ofTree]
        exact plainStart_coded ht
    | proto => cases hb

end Start

section Coders

variable {z : Zstd.Coder} {limit indent : Int} {format : Except FormatError Format} {t : Tree}
  {b d : Bytes}

theorem writeWith_eq_ok_iff {compress : Bool} :
    writeWith z limit { format, indent, compress } t = .ok b ↔ t.validate limit = .ok () ∧
      ∃ d, writeValid { format, indent } t = .ok d ∧ b = if compress then z.compress d else d := by
  rw [writeWith, check_bind_eq_ok_iff, mapError_eq_ok_iff, bind_eq_ok_iff]
  refine and_congr_right fun _ => exists_congr fun d => and_congr_right fun _ => ?_
  rw [eq_comm (a := b)]
  exact ⟨Except.ok.inj, congrArg Except.ok⟩

theorem unwrapWith_plain (hd : ¬ Zstd.magic <+: d) : unwrapWith z false d = .ok d := by
  rw [unwrapWith, Bool.false_or, if_neg]
  rwa [List.isPrefixOf_iff_prefix]

theorem unwrapWith_frame (compressed : Bool) (hb : Zstd.magic <+: b) :
    unwrapWith z compressed b = encoded (z.decompress? b) := by
  rw [unwrapWith, List.isPrefixOf_iff_prefix.mpr hb, Bool.or_true, if_pos rfl]

theorem readWith_eq {compressed : Bool} (hb : unwrapWith z compressed b = .ok d) :
    readWith z limit { format, compressed } b = readPlain limit format d := by
  rw [readWith, hb]
  rfl

/-- What is written of a tree begins like no frame and is read as it stands. With compression the
tree is written too, to a frame that is read as the plain bytes are, whether or not a frame is asked
for; and plain bytes are refused where a frame is asked for. -/
theorem compression_transparent (hz : z.Lawful)
    (hd : writeWith z limit { format, indent } t = .ok d) (hsize : d.length < 2 ^ 64) :
    ¬ Zstd.magic <+: d ∧
      readWith z limit { format } d = readPlain limit format d ∧
      (∃ b, writeWith z limit { format, indent, compress := true } t = .ok b ∧
        Zstd.magic <+: b ∧
        ∀ compressed, readWith z limit { format, compressed } b =
          readWith z limit { format } d) ∧
      readWith z limit { format, compressed := true } d = .error .encoding := by
  obtain ⟨ht, d, hvalid, rfl⟩ := writeWith_eq_ok_iff.mp hd
  have hstart := plainStart_writeValid (Tree.complete_of_validateAt ht) hvalid
  have hmagic : ¬ Zstd.magic <+: d := fun h => hstart.not_startsFrame (.inl h)
  have hplain : readWith z limit { format } d = readPlain limit format d :=
    readWith_eq (unwrapWith_plain hmagic)
  have hframe := hz.magic_compress d hstart.ne_nil
  refine ⟨hmagic, hplain, ⟨z.compress d, ?_, hframe, ?_⟩, ?_⟩
  · exact writeWith_eq_ok_iff.mpr ⟨ht, d, hvalid, rfl⟩
  · intro compressed
    rw [hplain]
    apply readWith_eq
    rw [unwrapWith_frame compressed hframe, hz.decompress_compress d hsize, encoded]
  · rw [readWith, unwrapWith, Bool.true_or, if_pos rfl,
      hz.refuses d hstart.ne_nil hstart.not_startsFrame]
    rfl

/-- A call whose argument has the first bytes of a frame as its text. -/
theorem compression_transparent_call :
    let call := Tree.node .invocation [.node (.identifier []) [], .node (.string Zstd.magic) []]
    (Zstd.rawCoder.Lawful ∧
        writeWith Zstd.rawCoder 1 { format := .ok .proto } call = .ok (writeProto call) ∧
        (writeProto call).length < 2 ^ 64) ∧
      ∃ b, write 1 { format := .ok .proto, compress := true } call = .ok b ∧
        Zstd.magic <+: b ∧
        read 1 { format := .ok .proto } b = .ok call ∧
        read 1 { format := .ok .proto, compressed := true } b = .ok call := by
  intro call
  have hwrite : writeWith Zstd.rawCoder 1 { format := .ok .proto } call = .ok (writeProto call) :=
    rfl
  have hsize : (writeProto call).length < 2 ^ 64 := by decide
  have hread : readWith Zstd.rawCoder 1 { format := .ok .proto } (writeProto call) = .ok call := rfl
  obtain ⟨-, -, ⟨b, hb, hmagic, hall⟩, -⟩ :=
    compression_transparent Zstd.rawCoder_lawful hwrite hsize
  refine ⟨⟨Zstd.rawCoder_lawful, hwrite, hsize⟩, b, hb, hmagic, ?_, ?_⟩
  · rw [read, hall false, hread]
  · rw [read, hall true, hread]

end Coders

end Codec

end Arbor
