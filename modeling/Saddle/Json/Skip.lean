import Saddle.Json.Token

/-!
# Skipping values

A value whose name means nothing is read over. It has to be well formed, but
nothing of it is kept except, while it lasts, the brackets that are still open. So
values may be nested to any depth.
-/

namespace Saddle.Json

/-- What a value is inside of. -/
inductive Bracket where
  | array
  | object
deriving Repr, BEq, DecidableEq

/-- What may come next. -/
inductive Expected where
  /-- A value. -/
  | value
  /-- The first element of an array, or its end. -/
  | firstElement
  /-- The first name of an object, or its end. -/
  | firstName
  /-- A name. -/
  | name
  /-- The colon behind a name. -/
  | colon
  /-- What follows a value: a comma, or the end of what it is inside of. -/
  | next
deriving Repr, BEq, DecidableEq

/-- A value of which a part has been read. -/
structure Skipping where
  /-- What may come next. -/
  expected : Expected
  /-- What is still open, the innermost first. -/
  within : List Bracket
deriving Repr, BEq, DecidableEq

namespace Skipping

/-- Reads the token with which a value begins. -/
def beginValue (within : List Bracket) (token : Token) : Option Skipping :=
  match token with
  | .null | .true | .false | .string _ | .number _ => some ⟨.next, within⟩
  | .beginArray => some ⟨.firstElement, .array :: within⟩
  | .beginObject => some ⟨.firstName, .object :: within⟩
  | _ => none

/-- Reads a name. -/
def readName (within : List Bracket) (token : Token) : Option Skipping :=
  match token with
  | .string _ => some ⟨.colon, within⟩
  | _ => none

/-- Reads what follows a value. -/
def afterValue (within : List Bracket) (token : Token) : Option Skipping :=
  match within, token with
  | .array :: _, .comma => some ⟨.value, within⟩
  | .array :: outer, .endArray => some ⟨.next, outer⟩
  | .object :: _, .comma => some ⟨.name, within⟩
  | .object :: outer, .endObject => some ⟨.next, outer⟩
  | _, _ => none

/-- Reads a token. -/
def step (s : Skipping) (token : Token) : Option Skipping :=
  match s.expected with
  | .value => beginValue s.within token
  | .firstElement =>
      if token = .endArray then afterValue s.within token else beginValue s.within token
  | .firstName =>
      if token = .endObject then afterValue s.within token else readName s.within token
  | .name => readName s.within token
  | .colon => if token = .colon then some ⟨.value, s.within⟩ else none
  | .next => afterValue s.within token

/-- Reads to the end of the value, and returns the tokens after it. -/
def finish : Skipping → List Token → Option (List Token)
  | _, [] => none
  | s, token :: rest =>
      match s.step token with
      | none => none
      | some s => if s.expected = .next ∧ s.within = [] then some rest else finish s rest

end Skipping

/-- The tokens after the value that comes first. -/
def skip (tokens : List Token) : Option (List Token) := Skipping.finish ⟨.value, []⟩ tokens

end Saddle.Json
