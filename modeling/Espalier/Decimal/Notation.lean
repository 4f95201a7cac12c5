import Espalier.Decimal.Shortest
import Espalier.Json.Basic

set_option autoImplicit false

/-! # How numbers are written and read

Program text and JSON text both start from the shortest decimal of a double, and differ in layout.
Program text takes the upper one of two equally near decimals, never has an exponent, and writes
whole numbers below `10 ^ 21` through a signed 64-bit integer. JSON text takes the even one of two
equally near decimals, writes magnitudes from `10 ^ -5` up to `10 ^ 16` with a point and at least
one digit after it, and everything else with a signed exponent. -/

namespace Espalier

/-! ## Layouts -/

namespace Decimal

/-- The characters of a digit string. -/
def digitChars (ds : List Nat) : List Char := ds.map fun d => Char.ofNat (d + 48)

/-- The digits before and after the decimal point. -/
def positional (d : Decimal) : List Nat × List Nat :=
  if d.exponent < 0 then ([0], List.replicate ((-d.exponent).toNat - 1) 0 ++ d.digits)
  else
    let places := d.exponent.toNat + 1
    (d.digits.take places ++ List.replicate (places - d.digits.length) 0, d.digits.drop places)

/-- The text of a decimal without an exponent. -/
def plainText (d : Decimal) : String :=
  match d.positional with
  | (whole, []) => String.ofList (digitChars whole)
  | (whole, fraction) => String.ofList (digitChars whole ++ '.' :: digitChars fraction)

end Decimal

namespace Double

/-- The text of a sign: a dash for a negative number. -/
def signText (negative : Bool) : String := if negative then "-" else ""

/-- The whole number `±magnitude`, held within the signed 64-bit range. -/
def saturated (negative : Bool) (magnitude : Nat) : Int :=
  if negative then -(min magnitude (Nat.pow 2 63) : Nat)
  else (min magnitude (Nat.pow 2 63 - 1) : Nat)

/-- The text of a number in a program. Whole numbers below `10 ^ 21` are held within the signed
64-bit range; all others are written with the fewest digits that read back, and no exponent. -/
def programText (d : Double) : String :=
  match d.value with
  | .nan => "NaN"
  | .infinite negative => signText negative ++ "Infinity"
  | .finite negative m e =>
    let (num, den) := scaled m e
    if num % den = 0 ∧ num < Nat.pow 10 21 * den then
      match saturated negative (num / den) with
      | .ofNat n => String.ofList (Nat.toDigits 10 n)
      | .negSucc n => "-" ++ String.ofList (Nat.toDigits 10 (n + 1))
    else signText negative ++ (Decimal.shortest .up m e).plainText

/-- The number in JSON layout; infinities and NaN have none. -/
def jsonNumber? (d : Double) : Option Json.Number :=
  match d.value with
  | .finite negative 0 _ => some ⟨negative, [0], [0], none⟩
  | .finite negative m e =>
    let dec := Decimal.shortest .even m e
    if -5 ≤ dec.exponent ∧ dec.exponent < 16 then
      let (whole, fraction) := dec.positional
      some ⟨negative, whole, if fraction = [] then [0] else fraction, none⟩
    else
      some ⟨negative, dec.digits.take 1, dec.digits.drop 1,
        some (decide (dec.exponent < 0), Decimal.digitsOf dec.exponent.natAbs)⟩
  | _ => none

/-- A double as a JSON value. -/
def toJson (d : Double) : Json := Json.ofOption .num d.jsonNumber?

end Double

/-! ## Reading -/

/-- What a JSON number stands for: an integer of at most 64 bits where it is written as one, and a
double otherwise. -/
inductive Numeral where
  | natural (n : Nat)
  | negative (n : Nat)
  | double (d : Double)
deriving DecidableEq, Repr

namespace Numeral

/-- The largest significand that is kept exactly. -/
def maxSignificand : Nat := Nat.pow 2 64 - 1

/-- Append digits to a significand while the result still fits, and tell how many were taken. -/
def takeDigits (significand : Nat) : List Nat → Nat × Nat
  | [] => (significand, 0)
  | d :: ds =>
    if significand * 10 + d ≤ maxSignificand then
      let (s, taken) := takeDigits (significand * 10 + d) ds
      (s, taken + 1)
    else (significand, 0)

/-- The power `10 ^ k` as a double. -/
def powerOfTen (k : Nat) : Double := Double.ofNat (Nat.pow 10 k)

/-- `magnitude · 10 ^ exponent`, by one multiplication or division with a power of ten as long as
that power is itself a double. Exponents below that range divide by `10 ^ 308` first; a result
beyond all doubles is refused. -/
def scaleByTen (magnitude : Double) : Nat → Int → Option Double
  | 0, _ => none
  | rounds + 1, exponent =>
    if exponent.natAbs ≤ 308 then
      if 0 ≤ exponent then
        let product := magnitude.mulMagnitude (powerOfTen exponent.natAbs)
        if product.isInfinite then none else some product
      else some (magnitude.divMagnitude (powerOfTen exponent.natAbs))
    else if magnitude.isZero then some magnitude
    else if 0 ≤ exponent then none
    else scaleByTen (magnitude.divMagnitude (powerOfTen 308)) rounds (exponent + 308)

/-- The number a digit string stands for. -/
def ofDigits (ds : List Nat) : Nat := ds.foldl (fun n d => n * 10 + d) 0

/-- The signed value of an exponent part. -/
def exponentOf : Option (Bool × List Nat) → Int
  | none => 0
  | some (true, ds) => -(ofDigits ds : Int)
  | some (false, ds) => ofDigits ds

/-- The double written by a number: at most 64 bits of significand are kept, digits before the
point that no longer fit count towards the exponent, and those after it are dropped. -/
def double? (n : Json.Number) : Option Double :=
  let (whole, taken) := takeDigits 0 n.whole
  let (significand, places) := takeDigits whole n.fraction
  let exponent := (n.whole.length - taken : Nat) - (places : Int) + exponentOf n.exponent
  -- The magnitude vanishes after three divisions, so four rounds are never used up.
  (scaleByTen (Double.ofNat significand) 4 exponent).map fun d =>
    if n.negative then d.negate else d

/-- The value of a JSON number; `none` when it is too large for a double. -/
def ofNumber? (n : Json.Number) : Option Numeral :=
  let (whole, taken) := takeDigits 0 n.whole
  if n.fraction = [] ∧ n.exponent = none ∧ taken = n.whole.length then
    if n.negative then
      if whole = 0 ∨ Nat.pow 2 63 < whole then some (.double (Double.ofNat whole).negate)
      else some (.negative whole)
    else some (.natural whole)
  else (double? n).map .double

/-- The value as a double. -/
def toDouble : Numeral → Double
  | .natural n => Double.ofNat n
  | .negative n => (Double.ofNat n).negate
  | .double d => d

end Numeral

namespace Json

/-- A number in the form in which it is kept: an integer of at most 64 bits as it is written, and
any other number as the double it stands for. -/
def Number.settled (n : Number) : Json :=
  match Numeral.ofNumber? n with
  | some (.double d) => d.toJson
  | _ => .num n

mutual

/-- A value with all its numbers in the form in which they are kept. -/
def settled : Json → Json
  | .num n => n.settled
  | .arr items => .arr (settledItems items)
  | .obj members => .obj (settledMembers members)
  | j => j

/-- `settled` for the items of an array. -/
def settledItems : List Json → List Json
  | [] => []
  | j :: rest => settled j :: settledItems rest

/-- `settled` for the members of an object. -/
def settledMembers : List (String × Json) → List (String × Json)
  | [] => []
  | (name, j) :: rest => (name, settled j) :: settledMembers rest

end

end Json

end Espalier
