set_option autoImplicit false

/-! # Double-precision numbers

A `Double` is the bit pattern of a binary64 number. Its value is read off the pattern as an exact
ratio of natural numbers, and arithmetic is exact arithmetic followed by one rounding to the
nearest double, so every statement about doubles is a statement about natural numbers. -/

namespace Espalier

/-- A double-precision number, given by its 64-bit pattern. -/
structure Double where
  bits : UInt64
deriving DecidableEq, Repr

namespace Double

/-- What a bit pattern stands for. A finite value is `±significand · 2 ^ exponent`. -/
inductive Value where
  | nan
  | infinite (negative : Bool)
  | finite (negative : Bool) (significand : Nat) (exponent : Int)
deriving DecidableEq, Repr

/-- The sign bit. -/
def negative (d : Double) : Bool := decide (Nat.pow 2 63 ≤ d.bits.toNat)

/-- The biased exponent, eleven bits wide. -/
def exponentField (d : Double) : Nat := d.bits.toNat / Nat.pow 2 52 % 2048

/-- The stored part of the significand, 52 bits wide. -/
def fractionField (d : Double) : Nat := d.bits.toNat % Nat.pow 2 52

/-- The value of a bit pattern. -/
def value (d : Double) : Value :=
  if d.exponentField = 2047 then
    if d.fractionField = 0 then .infinite d.negative else .nan
  else if d.exponentField = 0 then .finite d.negative d.fractionField (-1074)
  else .finite d.negative (Nat.pow 2 52 + d.fractionField) (d.exponentField - 1075)

/-- `significand · 2 ^ exponent` as numerator and denominator. -/
def scaled (significand : Nat) (exponent : Int) : Nat × Nat :=
  if 0 ≤ exponent then (significand * Nat.pow 2 exponent.toNat, 1)
  else (significand, Nat.pow 2 (-exponent).toNat)

/-- The magnitude of a finite number as numerator and denominator. -/
def ratio? (d : Double) : Option (Nat × Nat) :=
  match d.value with
  | .finite _ m e => some (scaled m e)
  | _ => none

/-- The whole number nearest to `num / den`; a half goes to the even neighbour. -/
def roundHalfEven (num den : Nat) : Nat :=
  let q := num / den
  let r := num % den
  if 2 * r < den ∨ (2 * r = den ∧ q % 2 = 0) then q else q + 1

/-- The bit pattern of `±significand · 2 ^ exponent`, or of infinity when that is too large. -/
def pack (negative : Bool) (significand : Nat) (exponent : Int) : Double :=
  let sign := if negative then Nat.pow 2 63 else 0
  let magnitude :=
    if 971 < exponent then 2047 * Nat.pow 2 52
    else if significand < Nat.pow 2 52 then significand
    else (exponent + 1075).toNat * Nat.pow 2 52 + (significand - Nat.pow 2 52)
  ⟨(sign + magnitude).toUInt64⟩

/-- The double nearest to `±num / den`, ties to even. -/
def ofRatio (negative : Bool) (num den : Nat) : Double :=
  if num = 0 then pack negative 0 0
  else
    let guess : Int := (num.log2 : Int) - den.log2 - 52
    let fits (e : Int) : Nat × Nat :=
      if 0 ≤ e then (num, den * Nat.pow 2 e.toNat) else (num * Nat.pow 2 (-e).toNat, den)
    let exact := if (fits guess).1 < Nat.pow 2 52 * (fits guess).2 then guess - 1 else guess
    let exponent := max exact (-1074)
    let significand := roundHalfEven (fits exponent).1 (fits exponent).2
    if significand = Nat.pow 2 53 then pack negative (Nat.pow 2 52) (exponent + 1)
    else pack negative significand exponent

/-- The double nearest to a natural number. -/
def ofNat (n : Nat) : Double := ofRatio false n 1

/-- Positive zero. -/
def zero : Double := ⟨0⟩

/-- Is this infinity, of either sign? -/
def isInfinite (d : Double) : Bool :=
  match d.value with
  | .infinite _ => true
  | _ => false

/-- Is this zero, of either sign? -/
def isZero (d : Double) : Bool :=
  match d.value with
  | .finite _ 0 _ => true
  | _ => false

/-- Flip the sign. -/
def negate (d : Double) : Double :=
  ⟨(if d.negative then d.bits.toNat - Nat.pow 2 63 else d.bits.toNat + Nat.pow 2 63).toUInt64⟩

/-- Product of two magnitudes, rounded once. Infinite operands give infinity. -/
def mulMagnitude (a b : Double) : Double :=
  match a.ratio?, b.ratio? with
  | some (an, ad), some (bn, bd) => ofRatio false (an * bn) (ad * bd)
  | _, _ => pack false 0 972

/-- Quotient of two magnitudes, rounded once. The divisor is finite and not zero. -/
def divMagnitude (a b : Double) : Double :=
  match a.ratio?, b.ratio? with
  | some (an, ad), some (bn, bd) => ofRatio false (an * bd) (ad * bn)
  | _, _ => pack false 0 972

end Double

end Espalier
