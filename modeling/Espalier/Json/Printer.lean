import Espalier.Json.Basic

set_option autoImplicit false

/-! # Writing JSON text

Two layouts of the same value: `compact` on one line without blanks, and `pretty` with one item or
member per line, two blanks per level and a blank after each colon. -/

namespace Espalier.Json

/-- The characters that stand for a hexadecimal digit. -/
def hexChar (n : Nat) : Char := if n < 10 then Char.ofNat (n + 48) else Char.ofNat (n + 87)

/-- How a character is written inside a string literal. -/
def escapeChar (c : Char) : List Char :=
  if c = '"' then ['\\', '"']
  else if c = '\\' then ['\\', '\\']
  else if c = '\x08' then ['\\', 'b']
  else if c = '\x0c' then ['\\', 'f']
  else if c = '\n' then ['\\', 'n']
  else if c = '\r' then ['\\', 'r']
  else if c = '\t' then ['\\', 't']
  else if c.toNat < 0x20 then ['\\', 'u', '0', '0', hexChar (c.toNat / 16), hexChar (c.toNat % 16)]
  else [c]

/-- A string literal. -/
def quote (s : String) : String :=
  String.ofList ('"' :: (s.toList.flatMap escapeChar ++ ['"']))

/-- The characters of a digit string. -/
def digitText (ds : List Nat) : String := String.ofList (ds.map fun d => Char.ofNat (d + 48))

/-- The text of a number. A positive exponent carries its sign. -/
def Number.text (n : Number) : String :=
  (if n.negative then "-" else "") ++ digitText n.whole
    ++ (if n.fraction = [] then "" else "." ++ digitText n.fraction)
    ++ match n.exponent with
      | none => ""
      | some (negative, ds) => "e" ++ (if negative then "-" else "+") ++ digitText ds

mutual

/-- One line, no blanks. -/
def compact : Json → String
  | .null => "null"
  | .bool true => "true"
  | .bool false => "false"
  | .num n => n.text
  | .str s => quote s
  | .arr items => "[" ++ ",".intercalate (compactItems items) ++ "]"
  | .obj members => "\x7b" ++ ",".intercalate (compactMembers members) ++ "\x7d"

/-- The items of an array, each on one line. -/
def compactItems : List Json → List String
  | [] => []
  | j :: rest => compact j :: compactItems rest

/-- The members of an object, each on one line. -/
def compactMembers : List (String × Json) → List String
  | [] => []
  | (name, j) :: rest => (quote name ++ ":" ++ compact j) :: compactMembers rest

end

/-- A line break followed by the blanks of a nesting level. -/
def newline (level : Nat) : String := String.ofList ('\n' :: List.replicate (2 * level) ' ')

/-- Items between brackets, one per line, one level deeper than the brackets. -/
def bracketed (level : Nat) (opening closing : String) (items : List String) : String :=
  if items = [] then opening ++ closing
  else
    let lead := newline (level + 1)
    opening ++ lead ++ ("," ++ lead).intercalate items ++ newline level ++ closing

mutual

/-- The text of a value at a nesting level, one item per line. -/
def prettyAt (level : Nat) : Json → String
  | .arr items => bracketed level "[" "]" (prettyItems (level + 1) items)
  | .obj members => bracketed level "\x7b" "\x7d" (prettyMembers (level + 1) members)
  | .null => "null"
  | .bool true => "true"
  | .bool false => "false"
  | .num n => n.text
  | .str s => quote s

/-- The items of an array at a nesting level. -/
def prettyItems (level : Nat) : List Json → List String
  | [] => []
  | j :: rest => prettyAt level j :: prettyItems level rest

/-- The members of an object at a nesting level. -/
def prettyMembers (level : Nat) : List (String × Json) → List String
  | [] => []
  | (name, j) :: rest => (quote name ++ ": " ++ prettyAt level j) :: prettyMembers level rest

end

/-- One item or member per line. -/
def pretty (j : Json) : String := prettyAt 0 j

end Espalier.Json
