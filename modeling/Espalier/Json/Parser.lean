import Espalier.Json.Shape
import Espalier.Json.Skip

set_option autoImplicit false

/-! # Reading JSON text

A recursive-descent reader, directed by the shape of what is asked for. Members that nobody asks
for are skipped. Everything else is read in full, and its brackets may be nested only as deeply as
`levels` allows. The fuel of the three functions that call each other is the length of the text,
which every nested value shortens. -/

namespace Espalier.Json

mutual

/-- A value, with blanks allowed in front. An ignored value reads as `null`. -/
def value? : Shape → Nat → Nat → List Char → Option (Json × List Char)
  | _, _, 0, _ => none
  | .ignored, _, _ + 1, cs => (skip? cs).map fun r => (.null, r)
  | shape, levels, fuel + 1, cs =>
    match skipBlanks cs, levels with
    | '[' :: rest, levels + 1 =>
      match skipBlanks rest with
      | ']' :: rest => some (.arr [], rest)
      | rest => do
        let (items, rest) ← items? shape 0 levels fuel rest
        some (.arr items, rest)
    | '\x7b' :: rest, levels + 1 =>
      match skipBlanks rest with
      | '\x7d' :: rest => some (.obj [], rest)
      | rest => do
        let (members, rest) ← members? shape levels fuel rest
        some (.obj members, rest)
    | '"' :: rest, _ => do
      let (text, rest) ← stringBody? rest
      some (.str (String.ofList text), rest)
    | rest, _ => scalar? rest

/-- The items of an array from an index on, up to and including the closing bracket. -/
def items? : Shape → Nat → Nat → Nat → List Char → Option (List Json × List Char)
  | _, _, _, 0, _ => none
  | shape, index, levels, fuel + 1, cs => do
    let (item, rest) ← value? (shape.item index) levels fuel cs
    match skipBlanks rest with
    | ',' :: rest =>
      let (items, rest) ← items? shape (index + 1) levels fuel rest
      some (item :: items, rest)
    | ']' :: rest => some ([item], rest)
    | _ => none

/-- The members of an object, up to and including the closing brace. Ignored ones are left out. -/
def members? : Shape → Nat → Nat → List Char → Option (List (String × Json) × List Char)
  | _, _, 0, _ => none
  | shape, levels, fuel + 1, cs =>
    match skipBlanks cs with
    | '"' :: rest => do
      let (text, rest) ← stringBody? rest
      let name := String.ofList text
      match skipBlanks rest with
      | ':' :: rest =>
        let (item, rest) ← value? (shape.member name) levels fuel rest
        match skipBlanks rest with
        | ',' :: rest =>
          let (members, rest) ← members? shape levels fuel rest
          some ((shape.member name).keep (name, item) members, rest)
        | '\x7d' :: rest => some ((shape.member name).keep (name, item) [], rest)
        | _ => none
      | _ => none
    | _ => none

end

/-- The value written by a text, as far as the shape asks for it: one value with nothing but
blanks around it. -/
def parse? (shape : Shape) (levels : Nat) (text : String) : Option Json :=
  let cs := text.toList
  match value? shape levels (cs.length + 1) cs with
  | some (j, rest) => if skipBlanks rest = [] then some j else none
  | none => none

end Espalier.Json
