/-! The powers here are those of the core operation, whatever other powers are in scope. -/
namespace Arbor

@[default_instance 10100]
instance (priority := 1100) corePower {α : Type} [NatPow α] : Pow α Nat := instPowNat

end Arbor
