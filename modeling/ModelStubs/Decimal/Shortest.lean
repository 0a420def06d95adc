/-
# The shortest decimal that reads back

A binary floating point number stands for an interval of reals, those that
round to it. `shortest` finds, in exact arithmetic on natural numbers, the decimal with the
fewest digits in that interval, and of two such decimals the one nearer to the
number. It tries grids of 1, 2, … 17 significant digits; on each it looks at
the two neighbours of the number.

Key definitions: `Decimal.Binary`, `Decimal.Scaled`, `Decimal.shortest`.
-/
namespace ModelStubs
namespace Decimal

/-- A finite positive binary number `mantissa * 2 ^ exponent`, and whether it is
the least of its power of two, so that the gap below it is half the gap above. -/
structure Binary where
  mantissa : Nat
  exponent : Int
  least : Bool
deriving DecidableEq, Repr

/-- The magnitude of a finite double, from its 63 low bits. -/
def Binary.ofBits (bits : Nat) : Binary :=
  let fraction : Nat := bits % (1 <<< 52)
  let power : Nat := (bits >>> 52) % (1 <<< 11)
  if power = 0 then ⟨fraction, -1074, false⟩
  else ⟨(1 <<< 52) + fraction, (power : Int) - 1075, fraction == 0 && 1 < power⟩

/-- A number and the two ends of its interval as multiples of one unit, with the
step of a decimal grid in the same unit. -/
structure Scaled where
  value : Nat
  low : Nat
  high : Nat
  step : Nat
  /-- Whether the ends belong to the interval. -/
  closed : Bool
deriving DecidableEq, Repr

/-- The number on the grid of multiples of `10 ^ place`. -/
def Binary.scaled (b : Binary) (place : Int) : Scaled :=
  let up := (1 <<< (b.exponent - 2).toNat) * Nat.pow 10 (-place).toNat
  { value := 4 * b.mantissa * up
    low := (4 * b.mantissa - if b.least then 1 else 2) * up
    high := (4 * b.mantissa + 2) * up
    step := (1 <<< (2 - b.exponent).toNat) * Nat.pow 10 place.toNat
    closed := b.mantissa % 2 == 0 }

/-- Whether the grid's point number `n` rounds to the number. -/
def Scaled.holds (s : Scaled) (n : Nat) : Bool :=
  if s.closed then s.low ≤ n * s.step && n * s.step ≤ s.high
  else s.low < n * s.step && n * s.step < s.high

/-- The distance from the number to the grid's point number `n`. -/
def Scaled.distance (s : Scaled) (n : Nat) : Nat :=
  (s.value - n * s.step) + (n * s.step - s.value)

/-- The neighbour of the number on the grid that rounds to it: the nearer one if
both do, the even one if they are equally near. -/
def Scaled.pick (s : Scaled) : Option Nat :=
  let below := s.value / s.step
  let above := below + 1
  match s.holds below, s.holds above with
  | false, false => none
  | true, false => some below
  | false, true => some above
  | true, true =>
    if s.distance below < s.distance above then some below
    else if s.distance above < s.distance below then some above
    else if below % 2 = 0 then some below else some above

/-- The power of ten of the leading digit. -/
def Binary.magnitude (b : Binary) : Int :=
  let s := b.scaled (-400)
  ((Nat.toDigits 10 (s.value / s.step)).length : Int) - 401

/-- A decimal `digits * 10 ^ place`. -/
structure Number where
  digits : Nat
  place : Int
deriving DecidableEq, Repr

/-- The first grid, from `count` digits on, that has a point in the interval. -/
def Binary.search (b : Binary) (count : Nat) : Nat → Number
  | 0 => ⟨b.mantissa, b.exponent⟩
  | tries + 1 =>
    let place := b.magnitude - (count : Int) + 1
    match (b.scaled place).pick with
    | some n => ⟨n, place⟩
    | none => b.search (count + 1) tries

/-- The shortest decimal that rounds to the number. Seventeen digits always
suffice for a double. -/
def shortest (b : Binary) : Number := b.search 1 17

end Decimal
end ModelStubs
