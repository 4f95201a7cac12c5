import Espalier.Json.Token

set_option autoImplicit false

/-! # Skipping JSON values

A value that nobody asks for still has to be spelled right, but nothing in it is interpreted:
numbers may be of any size, strings may hold half a surrogate pair, and brackets may be nested as
deeply as they like. The brackets that are open are kept in a list, innermost first. -/

namespace Espalier.Json

/-- What an open bracket encloses. -/
inductive Bracket where
  | array
  | object
deriving DecidableEq, Repr

/-- The name of a member and the colon behind it. -/
def skipName? (cs : List Char) : Option (List Char) :=
  match skipBlanks cs with
  | '"' :: rest =>
    match (skipString? rest).map skipBlanks with
    | some (':' :: rest) => some rest
    | _ => none
  | _ => none

mutual

/-- Skip a value, and what follows it up to the last of the brackets that are open around it. -/
def skipWithin? : Nat → List Bracket → List Char → Option (List Char)
  | 0, _, _ => none
  | fuel + 1, around, cs =>
    match skipBlanks cs with
    | '[' :: rest =>
      match skipBlanks rest with
      | ']' :: rest => skipAfter? fuel around rest
      | rest => skipWithin? fuel (.array :: around) rest
    | '\x7b' :: rest =>
      match skipBlanks rest with
      | '\x7d' :: rest => skipAfter? fuel around rest
      | rest =>
        match skipName? rest with
        | some rest => skipWithin? fuel (.object :: around) rest
        | none => none
    | '"' :: rest =>
      match skipString? rest with
      | some rest => skipAfter? fuel around rest
      | none => none
    | rest =>
      match scalar? rest with
      | some (_, rest) => skipAfter? fuel around rest
      | none => none

/-- Skip what follows a value up to the last of the brackets that are open around it. -/
def skipAfter? : Nat → List Bracket → List Char → Option (List Char)
  | _, [], cs => some cs
  | 0, _ :: _, _ => none
  | fuel + 1, bracket :: around, cs =>
    match bracket, skipBlanks cs with
    | .array, ',' :: rest => skipWithin? fuel (.array :: around) rest
    | .array, ']' :: rest => skipAfter? fuel around rest
    | .object, ',' :: rest =>
      match skipName? rest with
      | some rest => skipWithin? fuel (.object :: around) rest
      | none => none
    | .object, '\x7d' :: rest => skipAfter? fuel around rest
    | _, _ => none

end

/-- Skip a value, with blanks allowed in front. Every step takes at least one character, so their
number bounds the steps. -/
def skip? (cs : List Char) : Option (List Char) := skipWithin? (cs.length + 1) [] cs

end Espalier.Json
