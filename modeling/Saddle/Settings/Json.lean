import Saddle.Json.Number
import Saddle.Json.Skip
import Saddle.Settings.Basic

/-!
# Settings in JSON

Settings are given as an object with any of their names, in any order but each only
once, or as an array of at most four elements in a fixed order. What is not given
keeps its default. Members of an object with other names are skipped. A method is
given by its name, or by an object that has this name and the value `null`.
-/

namespace Saddle.Settings

open Saddle.Json (Token)

/-- What can be set. -/
inductive Key where
  | sigma
  | rho
  | ordering
  | denseRowFactor
deriving Repr, BEq, DecidableEq

/-- The order of the elements of an array. -/
def Key.all : List Key := [.sigma, .rho, .ordering, .denseRowFactor]

/-- What a setting is called. -/
def Key.name : Key → String
  | .sigma => "sigma"
  | .rho => "rho"
  | .ordering => "ordering"
  | .denseRowFactor => "dense_row_factor"

/-- What a method is called. -/
def orderingName : Elimination.Choice → String
  | .approximateMinimumDegree => "amd"
  | .minimumDegree => "minimum_degree"
  | .natural => "natural"

/-- The method with the given name. -/
def orderingNamed? (name : List Char) : Option Elimination.Choice :=
  [.approximateMinimumDegree, .minimumDegree, .natural].find? fun choice =>
    (orderingName choice).toList = name

/-- What has been given so far. -/
structure Given where
  sigma : Option Float := none
  rho : Option Float := none
  ordering : Option Elimination.Choice := none
  denseRowFactor : Option Float := none

namespace Given

/-- Reads a number. -/
def readFloat : List Token → Option (Float × List Token)
  | .number x :: rest => x.toFloat?.map (·, rest)
  | _ => none

/-- Reads a method. -/
def readOrdering : List Token → Option (Elimination.Choice × List Token)
  | .string pieces :: rest => ((Json.decode pieces).bind orderingNamed?).map (·, rest)
  | .beginObject :: .string pieces :: .colon :: .null :: .endObject :: rest =>
      ((Json.decode pieces).bind orderingNamed?).map (·, rest)
  | _ => none

/-- Whether a setting has been given already. -/
def has (g : Given) : Key → Bool
  | .sigma => g.sigma.isSome
  | .rho => g.rho.isSome
  | .ordering => g.ordering.isSome
  | .denseRowFactor => g.denseRowFactor.isSome

/-- Reads the value of a setting. -/
def readValue (g : Given) (key : Key) (tokens : List Token) : Option (Given × List Token) :=
  match key with
  | .sigma => (readFloat tokens).map fun (x, rest) => ({ g with sigma := some x }, rest)
  | .rho => (readFloat tokens).map fun (x, rest) => ({ g with rho := some x }, rest)
  | .ordering => (readOrdering tokens).map fun (x, rest) => ({ g with ordering := some x }, rest)
  | .denseRowFactor =>
      (readFloat tokens).map fun (x, rest) => ({ g with denseRowFactor := some x }, rest)

/-- Reads the value of the member with the given name. -/
def readMember (g : Given) (name : List Char) (tokens : List Token) :
    Option (Given × List Token) :=
  match Key.all.find? fun key => key.name.toList = name with
  | some key => if g.has key then none else g.readValue key tokens
  | none => (Json.skip tokens).map (g, ·)

/-- Reads at most `fuel` members of an object, and its end. -/
def readMembers : (fuel : Nat) → Given → List Token → Option (Given × List Token)
  | fuel + 1, g, .string pieces :: .colon :: rest => do
      match ← g.readMember (← Json.decode pieces) rest with
      | (g, .comma :: rest) => readMembers fuel g rest
      | (g, .endObject :: rest) => some (g, rest)
      | _ => none
  | _, _, _ => none

/-- Reads the elements of an array, which are the given settings in order, and its end. -/
def readElements (g : Given) : List Key → List Token → Option (Given × List Token)
  | [], _ => none
  | key :: keys, tokens => do
      match ← g.readValue key tokens with
      | (g, .comma :: rest) => readElements g keys rest
      | (g, .endArray :: rest) => some (g, rest)
      | _ => none

/-- Reads settings. A member of an object takes at least one token. -/
def read : List Token → Option (Given × List Token)
  | .beginObject :: .endObject :: rest => some ({}, rest)
  | .beginObject :: rest => readMembers rest.length {} rest
  | .beginArray :: .endArray :: rest => some ({}, rest)
  | .beginArray :: rest => readElements {} Key.all rest
  | _ => none

/-- The settings, with defaults for what has not been given. -/
def complete (g : Given) : Settings Float where
  sigma := g.sigma.getD default.sigma
  rho := g.rho.getD default.rho
  ordering := g.ordering.getD default.ordering
  denseRowFactor := g.denseRowFactor.getD default.denseRowFactor

end Given

/-- The settings that a JSON text gives. -/
def ofJson? (text : String) : Option (Settings Float) := do
  match ← Given.read (← Json.tokens text.toList) with
  | (given, []) => some given.complete
  | _ => none

end Saddle.Settings
