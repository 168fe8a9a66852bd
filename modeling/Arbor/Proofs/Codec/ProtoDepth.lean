import Arbor.Proofs.Codec.Acceptance
import Arbor.Proofs.Codec.Proto

/-! Under another limit the depth is all that can be wrong with a message. -/
namespace Arbor.Codec

section Limits

variable {limit wide : Int} {α β : Type}

/-- A second reading gives what the first one has given, unless it finds the limit exceeded. -/
def Confirms (limit : Int) (x y : Except CodecError α) : Prop :=
  ∀ a, x = .ok a → y = .ok a ∨ y = .error (.fault (.tooDeep limit))

theorem Confirms.refl (x : Except CodecError α) : Confirms limit x x := fun _ => .inl

theorem Confirms.bind {x y : Except CodecError α} {f g : α → Except CodecError β}
    (hfirst : Confirms limit x y) (hrest : ∀ a, Confirms limit (f a) (g a)) :
    Confirms limit (x >>= f) (y >>= g) := by
  intro b hb
  obtain ⟨a, ha, hb⟩ := bind_eq_ok_iff.mp hb
  rcases hfirst a ha with rfl | rfl
  · exact hrest a b hb
  · exact .inr rfl

theorem confirms_checkDepth (depth : Nat) :
    Confirms limit ((Tree.checkDepth wide depth).mapError CodecError.fault)
      ((Tree.checkDepth limit depth).mapError .fault) := by
  rintro ⟨⟩ -
  unfold Tree.checkDepth
  split
  · exact .inr rfl
  · exact .inl rfl

/-- Both readers take the same steps until a depth is checked. -/
theorem confirms_read (fuel : Nat) :
    (∀ depth b, Confirms limit (readMessage wide fuel depth b) (readMessage limit fuel depth b)) ∧
      ∀ depth d b,
        Confirms limit (readFields wide fuel depth d b) (readFields limit fuel depth d b) := by
  induction fuel with
  | zero =>
      refine ⟨fun _ _ => .refl _, ?_⟩
      intro depth d b
      cases b with
      | nil => exact .refl _
      | cons c b => exact .refl _
  | succ fuel ih =>
      obtain ⟨hmessage, hfields⟩ := ih
      constructor
      · intro depth b
        simp only [readMessage]
        exact (confirms_checkDepth depth).bind fun _ =>
          (hfields depth {} b).bind fun _ => .refl _
      · intro depth d b
        cases b with
        | nil => exact .refl _
        | cons c b =>
            simp only [readFields]
            refine (Confirms.refl _).bind fun tag => ?_
            obtain ⟨number, type, rest⟩ := tag
            cases Field.ofNumber? number with
            | none => exact (Confirms.refl _).bind fun rest => hfields depth d rest
            | some f =>
                dsimp only
                split
                next => exact .refl _
                next =>
                  split
                  next =>
                    exact (Confirms.refl _).bind fun p =>
                      (hmessage (depth + 1) p.1).bind fun child => hfields depth _ p.2
                  next => exact (Confirms.refl _).bind fun p => hfields depth p.1 p.2

end Limits

/-- The bytes of a valid tree are read under every limit that its levels fit, and under all others
they are refused for their depth. -/
theorem readProto_writeProto_eq {limit wide : Int} {t : Tree} (ht : t.validate wide = .ok ())
    (hsize : (writeProto t).length < 2 ^ 64) :
    readProto limit (writeProto t) =
      if (t.depth : Int) ≤ limit + 1 then .ok t.plusZero else .error (.fault (.tooDeep limit)) := by
  obtain ⟨htyped, hcomplete, -⟩ := Tree.validate_eq_ok_iff.mp ht
  split
  next hdepth =>
    exact readProto_writeProto (Tree.validate_eq_ok_iff.mpr ⟨htyped, hcomplete, hdepth⟩) hsize
  next hdepth =>
    have hwide := readProto_writeProto ht hsize
    rcases (confirms_read _).1 0 _ _ hwide with hread | hread
    · have hplus := (readMessage_readFields_valid limit _).1 hread
      exact absurd (Tree.validate_eq_ok_iff.mp (t.plusZero_same.symm.validateAt hplus)).2.2 hdepth
    · exact hread

end Arbor.Codec
