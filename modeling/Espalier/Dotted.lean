set_option autoImplicit false

/-! # Dotted texts

Paths such as `consequent.body.0` and patterns such as `React.createClass` are lists of parts
written with dots between them. A part may be a number that counts elements from zero. -/

namespace Espalier.Dotted

/-- Cut a list of characters at its dots. There is always one part more than there are dots. -/
def split : List Char → List (List Char)
  | [] => [[]]
  | c :: cs =>
    if c = '.' then [] :: split cs
    else match split cs with
      | part :: rest => (c :: part) :: rest
      | [] => [[c]]

/-- The parts of a dotted text. -/
def parts (s : String) : List String := (split s.toList).map String.ofList

/-- The largest number that counts as an index. -/
def maxIndex : Nat := Nat.pow 2 64 - 1

/-- The index written by a part: decimal digits, with a plus sign allowed in front. -/
def index? (part : String) : Option Nat :=
  let ds := match part.toList with
    | '+' :: ds => ds
    | ds => ds
  if ds ≠ [] ∧ ds.all Char.isDigit then
    let n := ds.foldl (fun n c => n * 10 + (c.toNat - 48)) 0
    if n ≤ maxIndex then some n else none
  else none

end Espalier.Dotted
