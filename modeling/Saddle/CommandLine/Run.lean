import Saddle.CommandLine.Options
import Saddle.Market.Reader
import Saddle.Settings.Json
import Saddle.Solver.Demo
import Saddle.Solver.Report

/-!
# Running the command line

The command line loads a quadratic form and constraints from files, sets up a
solver for them, tries it out and reports the size of the factor and what the
solution lacks. It is a function of its arguments and of what is in the files:
printing and reading is left to the program around it.
-/

namespace Saddle.CommandLine

/-- What a run needs of the machine and of the libraries that it runs with. -/
structure Machine where
  /-- Whether there is memory for arrays of so many bytes. -/
  allocates : Nat → Bool
  /-- The routine for approximate minimum degrees. -/
  amd : Elimination.Routine

/-- What is in the files, or why a file cannot be read. -/
abbrev Files := String → Except Market.SourceError (List UInt8)

/-- Why a run ends early. -/
inductive Failure where
  /-- The arguments say nothing that can be done. -/
  | usage
  /-- The file with the settings cannot be read. -/
  | settingsFile (cause : Market.SourceError)
  /-- The file with the settings does not hold any. -/
  | settingsText
  /-- A setting is refused. -/
  | settings (cause : Settings.Invalid Float)
  /-- No matrix is read from a file. -/
  | load (block : Kkt.Block) (file : String) (cause : Market.Error)
  /-- The solver is not set up. -/
  | init (cause : Solver.Error Float)
  /-- The trial does not succeed. -/
  | trial (cause : Solver.Error Float)

/-- The number with which a run ends early. -/
def Failure.exitCode : Failure → Nat
  | .usage | .init _ => 2
  | _ => 1

/-- How the command line is used. -/
def usageText : String :=
  "usage: saddle [--settings PATH] [--sigma NUMBER] [--rho NUMBER] " ++
    "[--ordering amd|minimum-degree|natural] [--polish] P A"

/-- What is reported of a run that ends early. -/
def Failure.message : Failure → String
  | .usage => usageText
  | .settingsFile cause => s!"invalid settings: {cause.message}"
  | .settingsText => "invalid settings: no settings in JSON"
  | .settings cause =>
      let error : Solver.Error Float := .settings cause
      s!"invalid settings: {error.message}"
  | .load block file cause => s!"failed to load {block.name} from {file}: {cause.message}"
  | .init cause => s!"init failed (status {cause.status.code}): {cause.message}"
  | .trial cause => s!"solve failed: {cause.message}"

/-- What a run prints, and how it ends. -/
structure Outcome where
  /-- The lines of the report, as far as the run gets. -/
  lines : List String := []
  /-- Why it ends early, if it does. -/
  failure : Option Failure := none

/-- The name under which a method is reported. -/
def orderingLabel : Elimination.Choice → String
  | .approximateMinimumDegree => "Amd"
  | .minimumDegree => "MinimumDegree"
  | .natural => "Natural"

/-- How many digits of a measured number are shown behind the point. -/
def places : Nat := 5

/-- The settings: those of the file, if there is one, and what the options say instead. -/
def chooseSettings (o : Options) (files : Files) : Except Failure (Settings Float) := do
  let base ←
    match o.settings with
    | none => pure Settings.default
    | some file =>
        let bytes ← (files file).mapError .settingsFile
        match String.fromUTF8? ⟨bytes.toArray⟩ with
        | none => throw (.settingsFile .notText)
        | some text =>
            match Settings.ofJson? text with
            | some settings => pure settings
            | none => throw .settingsText
  let settings := { base with
    sigma := o.sigma.getD base.sigma
    rho := o.rho.getD base.rho
    ordering := o.ordering.getD base.ordering }
  settings.validate.mapError .settings
  return settings

/-- The matrix in a file. -/
def load (machine : Machine) (files : Files) (block : Kkt.Block) (file : String) :
    Checked Failure (Csc Float) := do
  let bytes ← (files file).mapError fun cause => Failure.load block file (.source cause)
  ExceptT.adapt (.load block file) (Market.read machine.allocates bytes)

/-- The line that reports a matrix that has been loaded. -/
def loadLine (block : Kkt.Block) (file : String) (a : Csc Float) : String :=
  s!"{block.name}: {file} ({a.nrows} x {a.ncols}, nnz {a.nnz})"

/-- The lines that report a trial. -/
def trialLines (s : Solver Float) (settings : Settings Float) (p a : Csc Float)
    (trial : Solver.Trial Float) : List String :=
  let text (x : Float) := Decimal.scientificText places x
  [ "",
    s!"n {s.n} m {s.m} nnz(P) {p.nnz} nnz(A) {a.nnz} nnz(L) {s.symbolic.total} " ++
      s!"resid {text trial.residual}",
    s!"solver: {Solver.name} ordering={orderingLabel settings.ordering} " ++
      s!"polish={s.isPolishing} positive_pivots={s.numeric.positive}/{s.n + s.m}",
    s!"norms: ||b||_inf {text (Solver.infNorm trial.rightHandSide)}  " ++
      s!"||x||_inf {text (Solver.infNorm trial.solution)}" ]

/-- Sets up a solver for two matrices and tries it out. -/
def solve (machine : Machine) (settings : Settings Float) (polish : Bool) (p a : Csc Float) :
    Checked Failure (List String) := do
  let s ← ExceptT.adapt .init (Solver.init machine.amd p a none settings polish)
  let trial ← ExceptT.adapt .trial (s.trial p a)
  return trialLines s settings p a trial

/-- Runs on two files, once the settings are known. -/
def runOn (machine : Machine) (settings : Settings Float) (polish : Bool) (files : Files)
    (pFile aFile : String) : Option Outcome := do
  match ← (load machine files .p pFile).run with
  | .error e => return { failure := some e }
  | .ok p =>
      let lines := [loadLine .p pFile p]
      match ← (load machine files .a aFile).run with
      | .error e => return { lines, failure := some e }
      | .ok a =>
          let lines := lines ++ [loadLine .a aFile a]
          match ← (solve machine settings polish (← p.upperTriangle) a).run with
          | .error e => return { lines, failure := some e }
          | .ok report => return { lines := lines ++ report }

/-- Runs the command line. -/
def run (machine : Machine) (arguments : List String) (files : Files) : Option Outcome :=
  match Options.read arguments with
  | none => some { failure := some .usage }
  | some o =>
      match o.files with
      | [pFile, aFile] =>
          match chooseSettings o files with
          | .error e => some { failure := some e }
          | .ok settings => runOn machine settings o.polish files pFile aFile
      | _ => some { failure := some .usage }

end Saddle.CommandLine
