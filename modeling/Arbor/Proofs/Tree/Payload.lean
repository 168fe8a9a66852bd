import Arbor.Proofs.Tree.Marked
import Arbor.Proofs.Tree.Order

/-! Two payloads of one kind have the same bytes exactly if they compare as equal. -/
namespace Arbor.Head

/-- The bytes of payloads of one kind, with anything after them, are equal exactly if the payloads
compare as equal and the same follows them. -/
theorem payloadBytes_append_eq_iff {h k : Head} (hkind : h.kind = k.kind) (s t : Bytes) :
    h.payloadBytes ++ s = k.payloadBytes ++ t ↔ h.comparePayload k = .eq ∧ s = t := by
  rw [comparePayload_eq_iff hkind]
  constructor
  · exact payloadBytes_append_inj hkind
  · rintro ⟨hsame, rfl⟩
    rw [hsame.payloadBytes]

/-- Two patterns of NaN have the same bytes. The mark of an operator and a byte after it are not
those of another swapped, and a text with a byte after it is not the longer text. -/
theorem payloadBytes_append_eq_iff_marks :
    let nan (bits : UInt64) := float ⟨bits⟩
    let plus := unary [43]
    ((nan 0x7FF8000000000000).kind = (nan 0xFFF0000000000001).kind ∧
        (plus true).kind = (plus false).kind ∧ (string [1]).kind = (string [1, 1]).kind) ∧
      (nan 0x7FF8000000000000).payloadBytes ++ [1] =
        (nan 0xFFF0000000000001).payloadBytes ++ [1] ∧
      (plus true).payloadBytes ++ [0] ≠ (plus false).payloadBytes ++ [1] ∧
      (string [1]).payloadBytes ++ [1] ≠ (string [1, 1]).payloadBytes ++ [] := by
  intro nan plus
  have hnan : (nan 0x7FF8000000000000).kind = (nan 0xFFF0000000000001).kind := rfl
  have hplus : (plus true).kind = (plus false).kind := rfl
  have htext : (string [1]).kind = (string [1, 1]).kind := rfl
  refine ⟨⟨hnan, hplus, htext⟩, ?_, ?_, ?_⟩
  · exact (payloadBytes_append_eq_iff hnan [1] [1]).mpr ⟨by decide, rfl⟩
  · intro h
    exact absurd ((payloadBytes_append_eq_iff hplus [0] [1]).mp h).1 (by decide)
  · intro h
    exact absurd ((payloadBytes_append_eq_iff htext [1] []).mp h).1 (by decide)

end Arbor.Head
