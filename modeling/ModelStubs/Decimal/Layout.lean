/-
# How a floating point number is written

The digits are the shortest that read back. Between `10 ^ -5` and `10 ^ 16` they
are written with a point and at least one digit on each side of it; outside, one
digit stands before the point, which is left out if nothing follows, and the power of
ten follows an `e` with its sign.

Key definitions: `Decimal.Layout`, `Decimal.positional`, `Decimal.scientific`,
`Decimal.floatText`.
-/
import ModelStubs.Decimal.Shortest

namespace ModelStubs
namespace Decimal

/-- Where positional writing starts and ends, as counts of the digits before the
point: a negative count is a count of zeros after the point. -/
structure Layout where
  fewest : Int
  most : Int
deriving DecidableEq, Repr

/-- Messages write numbers from `10 ^ -5` up to `10 ^ 16` positionally. -/
def messageLayout : Layout := ⟨-4, 16⟩

/-- The digits with a point after the first `before` of them, filled up with
zeros so that a digit stands on each side. -/
def positional (digits : List Char) (before : Int) : List Char :=
  if before ≤ 0 then ['0', '.'] ++ List.replicate (-before).toNat '0' ++ digits
  else
    let whole := digits.take before.toNat
    let rest := digits.drop before.toNat
    whole ++ List.replicate (before.toNat - whole.length) '0' ++
      '.' :: if rest.isEmpty then ['0'] else rest

/-- The digits with a point after the first and the power of ten behind an `e`. -/
def scientific (digits : List Char) (power : Int) : List Char :=
  let point := if digits.length ≤ 1 then [] else '.' :: digits.drop 1
  let sign := if power < 0 then '-' else '+'
  digits.take 1 ++ point ++ 'e' :: sign :: Nat.toDigits 10 power.natAbs

/-- The digits without the zeros at their end. -/
def significant (n : Nat) : List Char :=
  ((Nat.toDigits 10 n).reverse.dropWhile (· == '0')).reverse

/-- A decimal in the given layout. -/
def Number.text (layout : Layout) (n : Number) : List Char :=
  let before := (Nat.toDigits 10 n.digits).length + n.place
  let digits := significant n.digits
  if layout.fewest ≤ before && before ≤ layout.most then positional digits before
  else scientific digits (before - 1)

/-- The text of a finite double in messages. -/
def floatText (x : Float) : String :=
  let bits := x.toBits.toNat
  let sign := if bits < 1 <<< 63 then [] else ['-']
  let magnitude := bits % (1 <<< 63)
  let text := if magnitude = 0 then ['0', '.', '0']
    else (shortest (Binary.ofBits magnitude)).text messageLayout
  String.ofList (sign ++ text)

end Decimal
end ModelStubs
