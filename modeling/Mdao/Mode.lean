/-!
# Directions of derivatives

A linear system is solved forward, `J x = b`, once for each input direction, or in reverse,
`Jᵀ x = b`, once for each output direction.
-/

namespace Mdao

/-- Forward or reverse. -/
inductive Mode where
  | fwd
  | rev
  deriving DecidableEq, Repr, Inhabited

/-- The name of a mode. -/
def Mode.label : Mode → String
  | .fwd => "Fwd"
  | .rev => "Rev"

end Mdao
