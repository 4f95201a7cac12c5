set_option autoImplicit false

/-! # JSON values

The data model of the exchange format. Numbers keep the digits they were written with, and objects
keep their members in order, repeated names included: what a number or a repetition means is for
the reader of the value to decide. -/

namespace Espalier

/-- A number as it is written: sign, digits before and after the point, and exponent (its sign and
digits). Digits are most significant first. -/
structure Json.Number where
  negative : Bool
  whole : List Nat
  fraction : List Nat
  exponent : Option (Bool × List Nat)
deriving DecidableEq, Repr

/-- A JSON value. -/
inductive Json where
  | null
  | bool (value : Bool)
  | num (value : Json.Number)
  | str (value : String)
  | arr (items : List Json)
  | obj (members : List (String × Json))
deriving Repr

namespace Json

/-- The number written with the given digits and nothing else. -/
def Number.ofDigits (digits : List Nat) : Number := ⟨false, digits, [], none⟩

/-- A natural number as a JSON value. -/
def ofNat (n : Nat) : Json :=
  .num (.ofDigits ((Nat.toDigits 10 n).map fun c => c.toNat - 48))

/-- An optional value, `null` when absent. -/
def ofOption {α : Type} (f : α → Json) : Option α → Json
  | none => .null
  | some a => f a

mutual

/-- Do all numbers inside a value satisfy `p`? -/
def allNumbers (p : Number → Bool) : Json → Bool
  | .num n => p n
  | .arr items => allNumbersOfList p items
  | .obj members => allNumbersOfMembers p members
  | _ => true

/-- `allNumbers` for the items of an array. -/
def allNumbersOfList (p : Number → Bool) : List Json → Bool
  | [] => true
  | j :: rest => allNumbers p j && allNumbersOfList p rest

/-- `allNumbers` for the members of an object. -/
def allNumbersOfMembers (p : Number → Bool) : List (String × Json) → Bool
  | [] => true
  | (_, j) :: rest => allNumbers p j && allNumbersOfMembers p rest

end

end Json

end Espalier
