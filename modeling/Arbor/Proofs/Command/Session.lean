import Arbor.Command.Session

/-! A command is taken apart into what it reports, what it writes and what it comes to. -/
namespace Arbor.Session

variable {m : Type → Type} [Monad m] [Host m]

theorem emit_lift (s : Session) (b : Bytes) :
    (s.emit b : ExceptT Failure m Unit) = ExceptT.lift (s.emit b) := by
  unfold emit
  split <;> rfl

variable [LawfulMonad m]

theorem trace_lift (s : Session) (notes : List Note) :
    (s.trace notes : ExceptT Failure m Unit) = ExceptT.lift (s.trace notes) := by
  unfold trace
  split
  · refine ExceptT.ext ?_
    simp
  · rfl

end Arbor.Session
