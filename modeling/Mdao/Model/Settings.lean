import Mdao.Coloring.Text
import Mdao.Model.Options
import Mdao.Text.Reading
import Mdao.Text.Toml

/-!
# Options as text

Options are read from TOML and from JSON, and written as data. Missing fields have their defaults
and unknown ones are ignored. A solver is a variant with the tag `type`; the two formats differ in
small ways (`Reading`).
-/

namespace Mdao

open Reading

/-- Reads settings of sweeps. -/
def SweepSettings.ofDatum? (d : Datum) : Option (SweepSettings Float) := do
  let o : SweepSettings Float := .default
  let r ← d.record? ["maxiter", "atol", "rtol", "use_cached_guess"] embedded.extraItems
  return ⟨← field? r 0 o.maxiter Datum.toNat?, ← field? r 1 o.atol number?,
    ← field? r 2 o.rtol number?, ← field? r 3 o.useCachedGuess Datum.toBool?⟩

/-- The fields of GMRES settings. -/
def GmresSettings.fieldNames : List String :=
  ["maxiter", "atol", "rtol", "restart", "use_cached_guess", "precon"]

/-- Reads GMRES settings, all but the preconditioner. -/
def GmresSettings.ofRecord? (r : RecordForm) : Option (GmresSettings Float) := do
  let o : GmresSettings Float := .default
  return ⟨← field? r 0 o.maxiter Datum.toNat?, ← field? r 1 o.atol number?,
    ← field? r 2 o.rtol number?, ← field? r 3 o.restart Datum.toNat?,
    ← field? r 4 o.useCachedGuess Datum.toBool?⟩

namespace LinearConfig

/-- The names of the linear solvers, in the order of their numbers. -/
def names : List String := ["direct", "gmres", "block_gauss_seidel", "block_jacobi", "run_once"]

/-- The name of the solver with a number; any other datum stays as it is. -/
def nameOf (d : Datum) : Datum :=
  match d.toNat?.bind fun n => names[n]? with
  | some name => .text name
  | none => d

/-- The data of a solver with its name in the place of its number. -/
def withName : Datum → Datum
  | .table fields => .table (fields.map fun f => if f.1 == "type" then (f.1, nameOf f.2) else f)
  | .list (tag :: rest) => .list (nameOf tag :: rest)
  | d => d

/-- Reads a linear solver; `fuel` bounds the length of the chain of preconditioners. -/
def read? (how : Reading) : (fuel : Nat) → Datum → Option (LinearConfig Float)
  | 0, _ => none
  | fuel + 1, d => do
    let (tag, rest) ← tagged? "type" d
    match tag with
    | "direct" => if isBare rest then some .direct else none
    | "run_once" => if isBare rest then some .runOnce else none
    | "block_gauss_seidel" => (SweepSettings.ofDatum? rest).map .blockGaussSeidel
    | "block_jacobi" => (SweepSettings.ofDatum? rest).map .blockJacobi
    | "gmres" =>
      let r ← rest.record? GmresSettings.fieldNames embedded.extraItems
      let s ← GmresSettings.ofRecord? r
      match r.get 5 with
      | none => some (.gmres s)
      | some .null => some (.gmres s)
      | some d =>
        let d := if how.numberedTags then withName d else d
        (read? how fuel d).map (.preconditioned s)
    | _ => none

/-- Reads a linear solver. -/
def ofDatum? (how : Reading) (d : Datum) : Option (LinearConfig Float) := read? how 1000 d

/-- The entries of GMRES settings. -/
def gmresFields (number : Float → Datum) (s : GmresSettings Float) (precon : Datum) :
    List (String × Datum) :=
  [("type", .text "gmres"), ("maxiter", .ofNat s.maxiter), ("atol", number s.atol),
    ("rtol", number s.rtol), ("restart", .ofNat s.restart),
    ("use_cached_guess", .truth s.useCachedGuess), ("precon", precon)]

/-- The entries of settings of sweeps. -/
def sweepFields (number : Float → Datum) (tag : String) (s : SweepSettings Float) :
    List (String × Datum) :=
  [("type", .text tag), ("maxiter", .ofNat s.maxiter), ("atol", number s.atol),
    ("rtol", number s.rtol), ("use_cached_guess", .truth s.useCachedGuess)]

/-- A linear solver as data, its numbers written by `number`. -/
def toDatum (number : Float → Datum) : LinearConfig Float → Datum
  | .direct => .table [("type", .text "direct")]
  | .gmres s => .table (gmresFields number s .null)
  | .preconditioned s nested => .table (gmresFields number s (toDatum number nested))
  | .blockGaussSeidel s => .table (sweepFields number "block_gauss_seidel" s)
  | .blockJacobi s => .table (sweepFields number "block_jacobi" s)
  | .runOnce => .table [("type", .text "run_once")]

end LinearConfig

/-- The words for kinds of line search. -/
def LineSearchKind.words : List (String × LineSearchKind) :=
  [("none", .none), ("bounds_enforce", .boundsEnforce), ("armijo", .armijo)]

/-- The word for a kind of line search. -/
def LineSearchKind.word : LineSearchKind → String
  | .none => "none"
  | .boundsEnforce => "bounds_enforce"
  | .armijo => "armijo"

/-- The words for ways of enforcing bounds. -/
def BoundEnforcement.words : List (String × BoundEnforcement) :=
  [("vector", .vector), ("scalar", .scalar), ("wall", .wall)]

/-- The word for a way of enforcing bounds. -/
def BoundEnforcement.word : BoundEnforcement → String
  | .vector => "vector"
  | .scalar => "scalar"
  | .wall => "wall"

namespace LineSearchSettings

/-- Reads settings of a line search. -/
def ofDatum? (d : Datum) : Option (LineSearchSettings Float) := do
  let o : LineSearchSettings Float := .default
  let r ← d.record?
    ["kind", "bound_enforcement", "c", "rho", "maxiter", "alpha", "retry_on_analysis_error"]
    embedded.extraItems
  return ⟨← field? r 0 o.kind (embedded.word? LineSearchKind.words),
    ← field? r 1 o.boundEnforcement (embedded.word? BoundEnforcement.words),
    ← field? r 2 o.c number?, ← field? r 3 o.rho number?, ← field? r 4 o.maxiter Datum.toNat?,
    ← field? r 5 o.alpha number?, ← field? r 6 o.retryOnAnalysisError Datum.toBool?⟩

/-- Settings of a line search as data. -/
def toDatum (number : Float → Datum) (s : LineSearchSettings Float) : Datum :=
  .table [("kind", .text s.kind.word), ("bound_enforcement", .text s.boundEnforcement.word),
    ("c", number s.c), ("rho", number s.rho), ("maxiter", .ofNat s.maxiter),
    ("alpha", number s.alpha), ("retry_on_analysis_error", .truth s.retryOnAnalysisError)]

end LineSearchSettings

namespace NonlinearConfig

/-- Reads settings of Newton's method. -/
def newtonOfDatum? (d : Datum) : Option (NewtonSettings Float) := do
  let o : NewtonSettings Float := .default
  let r ← d.record?
    ["maxiter", "atol", "rtol", "err_on_non_convergence", "solve_subsystems", "max_sub_solves",
      "line_search"] embedded.extraItems
  return ⟨← field? r 0 o.maxiter Datum.toNat?, ← field? r 1 o.atol number?,
    ← field? r 2 o.rtol number?, ← field? r 3 o.errOnNonConvergence Datum.toBool?,
    ← field? r 4 o.solveSubsystems Datum.toBool?, ← field? r 5 o.maxSubSolves Datum.toNat?,
    ← field? r 6 o.lineSearch LineSearchSettings.ofDatum?⟩

/-- Reads settings of nonlinear block Gauss-Seidel. -/
def gaussSeidelOfDatum? (d : Datum) : Option (GaussSeidelSettings Float) := do
  let o : GaussSeidelSettings Float := .default
  let r ← d.record? ["maxiter", "atol", "rtol", "err_on_non_convergence", "stall_limit"]
    embedded.extraItems
  return ⟨← field? r 0 o.maxiter Datum.toNat?, ← field? r 1 o.atol number?,
    ← field? r 2 o.rtol number?, ← field? r 3 o.errOnNonConvergence Datum.toBool?,
    ← field? r 4 o.stallLimit Datum.toNat?⟩

/-- Reads a nonlinear solver. -/
def ofDatum? (d : Datum) : Option (NonlinearConfig Float) := do
  let (tag, rest) ← tagged? "type" d
  match tag with
  | "newton" => (newtonOfDatum? rest).map .newton
  | "gauss_seidel" => (gaussSeidelOfDatum? rest).map .gaussSeidel
  | "run_once" => if isBare rest then some .runOnce else none
  | _ => none

/-- A nonlinear solver as data. -/
def toDatum (number : Float → Datum) : NonlinearConfig Float → Datum
  | .newton s =>
    .table [("type", .text "newton"), ("maxiter", .ofNat s.maxiter), ("atol", number s.atol),
      ("rtol", number s.rtol), ("err_on_non_convergence", .truth s.errOnNonConvergence),
      ("solve_subsystems", .truth s.solveSubsystems), ("max_sub_solves", .ofNat s.maxSubSolves),
      ("line_search", s.lineSearch.toDatum number)]
  | .gaussSeidel s =>
    .table [("type", .text "gauss_seidel"), ("maxiter", .ofNat s.maxiter),
      ("atol", number s.atol), ("rtol", number s.rtol),
      ("err_on_non_convergence", .truth s.errOnNonConvergence),
      ("stall_limit", .ofNat s.stallLimit)]
  | .runOnce => .table [("type", .text "run_once")]

end NonlinearConfig

namespace ColoringSettings

/-- Reads settings of colorings. -/
def ofDatum? (how : Reading) (d : Datum) : Option (ColoringSettings Float) := do
  let o : ColoringSettings Float := .default
  let r ← d.record? ["direction", "recovery", "tol", "num_full_jacs", "seed"] how.extraItems
  return ⟨← field? r 0 o.direction (how.word? Direction.words),
    ← field? r 1 o.recovery (how.word? Recovery.words), ← field? r 2 o.tol number?,
    ← field? r 3 o.numFullJacs Datum.toNat?, ← field? r 4 o.seed Datum.toWord?⟩

/-- Settings of colorings as data. -/
def toDatum (number : Float → Datum) (s : ColoringSettings Float) : Datum :=
  .table [("direction", .text s.direction.word), ("recovery", .text s.recovery.word),
    ("tol", number s.tol), ("num_full_jacs", .ofNat s.numFullJacs),
    ("seed", .ofNat s.seed.toNat)]

end ColoringSettings

namespace BlockOptions

/-- Reads the solvers of a block. -/
def ofDatum? (how : Reading) (d : Datum) : Option (BlockOptions Float) := do
  let o : BlockOptions Float := .default
  let r ← d.record? ["nonlinear", "linear", "assemble_jac"] how.extraItems
  return ⟨← field? r 0 o.nonlinear NonlinearConfig.ofDatum?,
    ← field? r 1 o.linear (LinearConfig.ofDatum? how), ← field? r 2 o.assembleJac Datum.toBool?⟩

/-- The solvers of a block as data. -/
def toDatum (number : Float → Datum) (o : BlockOptions Float) : Datum :=
  .table [("nonlinear", o.nonlinear.toDatum number), ("linear", o.linear.toDatum number),
    ("assemble_jac", .truth o.assembleJac)]

end BlockOptions

namespace SolverOptions

/-- Reads the options for totals. -/
def totalsOfDatum? (how : Reading) (d : Datum) : Option (TotalsOptions Float) := do
  let o : TotalsOptions Float := .default
  let r ← d.record? ["linear", "coloring", "coloring_file"] how.extraItems
  return ⟨← field? r 0 o.linear (LinearConfig.ofDatum? how),
    ← field? r 1 o.coloring (ColoringSettings.ofDatum? how),
    ← field? r 2 none (Datum.optional? Datum.toText?)⟩

/-- Reads the solvers of blocks; of several under one name the last counts. -/
def blocksOfFields? (how : Reading) :
    List (String × Datum) → Option (List (String × BlockOptions Float))
  | [] => some []
  | (name, d) :: rest => do
    let b ← BlockOptions.ofDatum? how d
    let others ← blocksOfFields? how rest
    return if (others.lookup name).isSome then others else insertNamed name b others

/-- Reads the table of the solvers of blocks. -/
def blocksOfDatum? (how : Reading) : Datum → Option (List (String × BlockOptions Float))
  | .table fields => blocksOfFields? how fields
  | _ => none

/-- Reads all options. -/
def ofDatum? (how : Reading) (d : Datum) : Option (SolverOptions Float) := do
  let o : SolverOptions Float := .default
  let r ← d.record? ["root", "blocks", "totals", "strict_partials"] how.extraItems
  return ⟨← field? r 0 none (Datum.optional? (BlockOptions.ofDatum? how)),
    ← field? r 1 [] (blocksOfDatum? how), ← field? r 2 o.totals (totalsOfDatum? how),
    ← field? r 3 none (Datum.optional? number?)⟩

/-- All options as data. -/
def toDatum (number : Float → Datum) (o : SolverOptions Float) : Datum :=
  .table [("root", .ofOption (BlockOptions.toDatum number) o.root),
    ("blocks", .table (o.blocks.map fun b => (b.1, b.2.toDatum number))),
    ("totals", .table [("linear", o.totals.linear.toDatum number),
      ("coloring", o.totals.coloring.toDatum number),
      ("coloring_file", .ofOption Datum.text o.totals.coloringFile)]),
    ("strict_partials", .ofOption number o.strictPartials)]

/-- Options that have been read, if they make sense. -/
def checked (o : SolverOptions Float) : Except (ModelError Float) (SolverOptions Float) :=
  match o.validate with
  | .ok _ => .ok o
  | .error e => .error e

/-- Reads options from TOML. -/
def ofToml (text : String) : Except (ModelError Float) (SolverOptions Float) :=
  match (Toml.parse? text).bind (ofDatum? .toml) with
  | some o => checked o
  | none => .error .config

/-- Reads options from JSON. -/
def ofJson (text : String) : Except (ModelError Float) (SolverOptions Float) :=
  match (Json.parse? text).bind (ofDatum? .json) with
  | some o => checked o
  | none => .error .json

/-- Reads options from the text of a file: JSON for the extension `json`, TOML for any other. -/
def ofFile (extension : Option String) (text : String) :
    Except (ModelError Float) (SolverOptions Float) :=
  if extension = some "json" then ofJson text else ofToml text

/-- Options as JSON. -/
def toJson (o : SolverOptions Float) : String := Json.render (o.toDatum Datum.ofFloat)

end SolverOptions

end Mdao
