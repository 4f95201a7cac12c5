import Espalier.Decimal.Double

set_option autoImplicit false

/-! # The shortest decimal of a double

Among the decimals that round back to a double, the one with the fewest digits is chosen, and of
those the one nearest to the double; two that are equally near are told apart by a tie rule. The
search tries one digit, two digits and so on, and on each
decimal grid looks only at the two neighbours of the exact value: if any grid point rounds back,
one of these two does. -/

namespace Espalier

/-- A positive decimal `d₁.d₂d₃… · 10 ^ exponent`, with its digits from the most significant on. -/
structure Decimal where
  digits : List Nat
  exponent : Int
deriving DecidableEq, Repr

namespace Decimal

/-- The decimal digits of a natural number, most significant first. -/
def digitsOf (n : Nat) : List Nat := (Nat.toDigits 10 n).map fun c => c.toNat - 48

/-- The exponent of the leading digit of `num / den`, both positive. -/
def leadingExponent (num den : Nat) : Int :=
  if den ≤ num then ((digitsOf (num / den)).length : Int) - 1
  else
    let k := (digitsOf (den / num)).length
    if den ≤ num * Nat.pow 10 (k - 1) then -((k : Int) - 1) else -(k : Int)

/-- The exact value with the range of reals that round to it, as numerators over one denominator.
The ends belong to the range exactly when the significand is even. -/
structure Interval where
  low : Nat
  value : Nat
  high : Nat
  den : Nat
  closed : Bool
deriving DecidableEq, Repr

/-- The rounding interval of `significand · 2 ^ exponent`. Just above a power of two the neighbour
below is only half as far away. -/
def Interval.ofBinary (significand : Nat) (exponent : Int) : Interval :=
  let unit := Double.scaled 1 (exponent - 2)
  let below := if significand = Nat.pow 2 52 ∧ -1074 < exponent then 1 else 2
  { low := (4 * significand - below) * unit.1
    value := 4 * significand * unit.1
    high := (4 * significand + 2) * unit.1
    den := unit.2
    closed := decide (significand % 2 = 0) }

/-- Multiply by `10 ^ -step` on the side where that stays whole. -/
def onGrid (step : Int) (coarse fine : Nat) : Nat × Nat :=
  if 0 ≤ step then (coarse * Nat.pow 10 step.toNat, fine)
  else (coarse, fine * Nat.pow 10 (-step).toNat)

/-- Does `c · 10 ^ step` lie in the interval? -/
def Interval.holds (i : Interval) (step : Int) (c : Nat) : Bool :=
  let low := onGrid step (c * i.den) i.low
  let high := onGrid step (c * i.den) i.high
  if i.closed then decide (low.2 ≤ low.1) && decide (high.1 ≤ high.2)
  else decide (low.2 < low.1) && decide (high.1 < high.2)

/-- Which of two equally near decimals is taken: the upper one, or the one that ends in an even
digit. -/
inductive Tie where
  | up
  | even
deriving DecidableEq, Repr

/-- Does a tie between `below` and its upper neighbour go to `below`? -/
def Tie.takesBelow (below : Nat) : Tie → Bool
  | .up => false
  | .even => below % 2 == 0

/-- The grid point of step `10 ^ step` that stands for the interval: the nearer one of the two
neighbours of the value, or the one that the tie rule takes when both are equally near. -/
def Interval.gridPoint? (i : Interval) (tie : Tie) (step : Int) : Option Nat :=
  let (den, value) := onGrid step i.den i.value
  let below := value / den
  let above := below + 1
  let middle := (below + above) * den
  let prefersBelow := decide (2 * value < middle) ||
    (decide (2 * value = middle) && tie.takesBelow below)
  if i.holds step below then
    if i.holds step above && !prefersBelow then some above else some below
  else if i.holds step above then some above
  else none

/-- Drop the zeros at the end of a digit string. -/
def dropTrailingZeros (ds : List Nat) : List Nat := (ds.reverse.dropWhile (· == 0)).reverse

/-- The decimal `c · 10 ^ step`. -/
def ofGridPoint (step : Int) (c : Nat) : Decimal :=
  let ds := digitsOf c
  ⟨dropTrailingZeros ds, step + ds.length - 1⟩

/-- Try `count` digits, then one more, as often as `tries` allows. -/
def Interval.search (i : Interval) (tie : Tie) (lead : Int) : Nat → Nat → Decimal
  | 0, count =>
    let step := lead + 1 - count
    let (den, value) := onGrid step i.den i.value
    ofGridPoint step (value / den)
  | tries + 1, count =>
    let step := lead + 1 - count
    match i.gridPoint? tie step with
    | some c => ofGridPoint step c
    | none => i.search tie lead tries (count + 1)

/-- The shortest decimal that rounds to `significand · 2 ^ exponent`, for a positive significand.
Seventeen digits always suffice. -/
def shortest (tie : Tie) (significand : Nat) (exponent : Int) : Decimal :=
  let i := Interval.ofBinary significand exponent
  i.search tie (leadingExponent i.value i.den) 17 1

end Decimal

end Espalier
