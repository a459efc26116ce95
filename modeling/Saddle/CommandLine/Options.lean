import Saddle.Decimal.Real
import Saddle.Elimination.Choice

/-!
# Command line options

The command line names the files of two matrices and may set a few options, each
at most once, in front of the files, between them or behind them. An option that
has a value takes what follows an equals sign, or the next argument, which then has
to be no option itself. After two dashes everything is the name of a file.
-/

namespace Saddle.CommandLine

/-- The options that have a value. -/
inductive Flag where
  | settings
  | sigma
  | rho
  | ordering
deriving Repr, BEq, DecidableEq

/-- The flag with the given name. -/
def Flag.named? (name : String) : Option Flag :=
  match name with
  | "settings" => some .settings
  | "sigma" => some .sigma
  | "rho" => some .rho
  | "ordering" => some .ordering
  | _ => none

/-- The method with the given name. -/
def orderingNamed? (name : String) : Option Elimination.Choice :=
  match name with
  | "amd" => some .approximateMinimumDegree
  | "minimum-degree" => some .minimumDegree
  | "natural" => some .natural
  | _ => none

/-- What the command line says. -/
structure Options where
  /-- The file with the settings. -/
  settings : Option String := none
  sigma : Option Float := none
  rho : Option Float := none
  ordering : Option Elimination.Choice := none
  /-- Whether the solver is one for polishing. -/
  polish : Bool := false
  /-- The names of files, in order. -/
  files : List String := []

namespace Options

/-- Takes a value, unless there is one already. -/
def once {β : Type} (old new : Option β) : Option (Option β) :=
  match old, new with
  | none, some x => some (some x)
  | _, _ => none

/-- Gives an option its value. -/
def set (o : Options) (flag : Flag) (value : String) : Option Options :=
  match flag with
  | .settings => (once o.settings (some value)).map fun settings => { o with settings }
  | .sigma => (once o.sigma (Decimal.readReal value.toList)).map fun sigma => { o with sigma }
  | .rho => (once o.rho (Decimal.readReal value.toList)).map fun rho => { o with rho }
  | .ordering => (once o.ordering (orderingNamed? value)).map fun ordering => { o with ordering }

/-- Adds the name of a file. -/
def addFile (o : Options) (name : String) : Options := { o with files := o.files ++ [name] }

/-- An argument of a command line. -/
inductive Argument where
  /-- Two dashes and nothing else. -/
  | separator
  /-- An option without a value. -/
  | bare (name : String)
  /-- An option with a value behind an equals sign. -/
  | assigned (name value : String)
  /-- Anything that does not start with a dash, or a single dash. -/
  | plain (text : String)
  /-- A single dash with something behind it. -/
  | short

/-- Tells what kind of argument a text is. -/
def Argument.of (text : String) : Argument :=
  match text.toList with
  | ['-', '-'] => .separator
  | '-' :: '-' :: rest =>
      match rest.dropWhile (· ≠ '=') with
      | [] => .bare (.ofList rest)
      | _ :: value => .assigned (.ofList (rest.takeWhile (· ≠ '='))) (.ofList value)
  | '-' :: _ :: _ => .short
  | _ => .plain text

/-- Reads the arguments. An option that is still `waiting` for its value takes the next one. -/
def readArguments : Option Flag → Options → List String → Option Options
  | none, o, [] => some o
  | some _, _, [] => none
  | some flag, o, text :: rest =>
      match Argument.of text with
      | .plain value => (o.set flag value).bind fun o => readArguments none o rest
      | _ => none
  | none, o, text :: rest =>
      match Argument.of text with
      | .separator => some (rest.foldl addFile o)
      | .bare "polish" =>
          if o.polish then none else readArguments none { o with polish := true } rest
      | .bare name => (Flag.named? name).bind fun flag => readArguments (some flag) o rest
      | .assigned name value =>
          ((Flag.named? name).bind fun flag => o.set flag value).bind fun o =>
            readArguments none o rest
      | .plain name => readArguments none (o.addFile name) rest
      | .short => none

/-- What the arguments say. -/
def read (arguments : List String) : Option Options := readArguments none {} arguments

end Options

end Saddle.CommandLine
