/-!
The numbers that the solvers compute with.

Every algorithm of the library is written once over a `Scalar`. Run with `Float` it is the program;
read in an ordered field it is the mathematics. The class carries operations only, so a statement
that needs no law of arithmetic can be proved for all scalars at once.
-/

namespace NonlinearOpt

/-- Numbers with comparisons that answer `false` wherever an operand is not a number. -/
class Scalar (α : Type) extends Add α, Sub α, Mul α, Div α, Neg α, Zero α, One α, OfScientific α where
  lt : α → α → Bool
  le : α → α → Bool
  /-- Equality as the arithmetic sees it: zeros of both signs are equal, nothing equals a non-number. -/
  eq : α → α → Bool
  abs : α → α
  sqrt : α → α
  pow : α → α → α
  exp : α → α
  ofNat : Nat → α
  isNaN : α → Bool
  isFinite : α → Bool
  nan : α
  infinity : α
  /-- Distance from one to the next larger number. -/
  epsilon : α

namespace Scalar

variable {α : Type} [Scalar α]

/-- The larger of two numbers. An operand that is not a number is passed over, and of two equal
ones the first is kept. -/
def max (x y : α) : α :=
  if isNaN x then y else if lt x y then y else x

def min (x y : α) : α :=
  if isNaN x then y else if lt y x then y else x

end Scalar

instance : Scalar Float where
  lt x y := decide (x < y)
  le x y := decide (x ≤ y)
  eq x y := x == y
  abs := Float.abs
  sqrt := Float.sqrt
  pow := Float.pow
  exp := Float.exp
  ofNat := Float.ofNat
  isNaN := Float.isNaN
  isFinite := Float.isFinite
  nan := 0.0 / 0.0
  infinity := 1.0 / 0.0
  epsilon := 2.220446049250313e-16

end NonlinearOpt
