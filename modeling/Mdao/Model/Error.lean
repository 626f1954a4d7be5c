import Mdao.Coloring.Settings
import Mdao.Nonlinear.Basic

/-!
# Errors of models

What can go wrong while a model is put together, run, or differentiated.
-/

namespace Mdao

/-- Why an operation on a model failed. -/
inductive ModelError (α : Type) where
  /-- Something is wrong with names, sizes or connections. -/
  | core (cause : StructureError)
  /-- A unit could not be evaluated or linearized. -/
  | eval (cause : EvalError)
  /-- A linear solve failed. -/
  | linear (cause : LinearError)
  /-- The nonlinear solve of a block failed. -/
  | nonlinear (block : String) (cause : NonlinearError α)
  /-- The settings of a nonlinear solver make no sense. -/
  | nonlinearConfig (cause : NonlinearConfigError)
  /-- The settings of a linear solver make no sense. -/
  | linearConfig (cause : LinearConfigError)
  /-- A coloring could not be had. -/
  | coloring (cause : ColoringError)
  /-- The model cannot be set up. -/
  | setup (text : String)
  /-- A settings text is no TOML, or does not fit. -/
  | config
  /-- A settings text is no JSON, or does not fit. -/
  | json
  /-- A settings file cannot be read. -/
  | io

/-- What an error of a model says. -/
def ModelError.message {α : Type} : ModelError α → String
  | .core cause => cause.message
  | .eval cause => cause.message
  | .linear cause => s!"linear solve failed: {cause.message}"
  | .nonlinear block cause => s!"block '{block}' failed: {cause.message}"
  | .nonlinearConfig cause => s!"invalid nonlinear solver options: {cause.message}"
  | .linearConfig cause => s!"invalid linear solver options: {cause.message}"
  | .coloring cause => cause.message
  | .setup text => s!"setup failed: {text}"
  | .config => "invalid options file"
  | .json => "invalid options file"
  | .io => "options file cannot be read"

end Mdao
