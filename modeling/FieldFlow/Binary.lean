/-!
# Binary numbers with 53 significant bits

Ratios and products are rounded to the nearest number whose significand has 53 bits, a tie going to
the even neighbour.  The exponent is unbounded, so nothing overflows or vanishes.

Main definitions: `Binary.ofNat`, `Binary.mul`, `Binary.div`, `Binary.floor`.
-/

namespace FieldFlow

/-- The number `significand * 2 ^ exponent`. -/
structure Binary where
  significand : Nat
  exponent : Int
deriving DecidableEq, Repr

namespace Binary

/-- The number of significant bits. -/
def precision : Nat := 53

/-- Drops bits from a number `n * 2 ^ exponent` until 53 are left, rounding to the nearest.  `more`
says that the exact number is a little larger; there must be more than 53 bits then. -/
def round (n : Nat) (exponent : Int) (more : Bool) : Binary :=
  let drop := Nat.log2 n + 1 - precision
  let kept := n / Nat.pow 2 drop
  let rest := n % Nat.pow 2 drop
  let half := Nat.pow 2 drop / 2
  let up := 0 < drop && (half < rest || (half = rest && (more || kept % 2 = 1)))
  ⟨if up then kept + 1 else kept, exponent + drop⟩

/-- The number nearest to a ratio. -/
def ofRatio (numerator denominator : Nat) : Binary :=
  let shift := precision + 2 + Nat.log2 denominator
  let scaled := numerator * Nat.pow 2 shift
  round (scaled / denominator) (-(shift : Int)) (scaled % denominator ≠ 0)

/-- The number nearest to a natural number. -/
def ofNat (n : Nat) : Binary := ofRatio n 1

/-- The number nearest to a quotient. -/
def div (a b : Binary) : Binary :=
  let q := ofRatio a.significand b.significand
  ⟨q.significand, q.exponent + a.exponent - b.exponent⟩

/-- The number nearest to a product. -/
def mul (a b : Binary) : Binary :=
  round (a.significand * b.significand) (a.exponent + b.exponent) false

/-- The whole part of a number. -/
def floor (a : Binary) : Nat :=
  if 0 ≤ a.exponent then a.significand * Nat.pow 2 a.exponent.toNat
  else a.significand / Nat.pow 2 (-a.exponent).toNat

end Binary

end FieldFlow
