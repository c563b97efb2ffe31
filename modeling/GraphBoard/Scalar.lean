/-!
# GraphBoard.Scalar

The numbers that coordinates, sizes, factors and times are made of. Every geometric definition
of this library is written once over the class `Scalar`, in a fixed order of operations, so that
it can be run on doubles and read in exact arithmetic.

The operations that a number type does not agree on with the order alone (`min`, `max`, `clamp`)
are defined here from comparisons, so that they say what happens to a value that compares with
nothing.
-/

namespace GraphBoard

/-- Numbers with the operations that drawing and picking need. -/
class Scalar (α : Type) extends Add α, Sub α, Mul α, Div α, Neg α, LE α, LT α, OfScientific α where
  /-- Comparing numbers is decidable. -/
  decidableLE : DecidableLE α
  /-- Comparing numbers strictly is decidable. -/
  decidableLT : DecidableLT α
  /-- The number of a count or an index. -/
  ofNat : Nat → α
  /-- The magnitude of a number. -/
  abs : α → α
  /-- The square root. -/
  sqrt : α → α
  /-- The greatest whole number that is not above. -/
  floor : α → α
  /-- The nearest whole number; a half goes away from zero. -/
  round : α → α
  /-- The remainder of the division cut toward zero: it has the dividend's sign. -/
  rem : α → α → α
  /-- Half the circumference of the unit circle. -/
  pi : α
  /-- The cosine of an angle in radians. -/
  cos : α → α
  /-- The sine of an angle in radians. -/
  sin : α → α
  /-- The whole part of a number, zero where there is none or it is below zero. -/
  toNat : α → Nat

namespace Scalar

variable {α : Type} [Scalar α]

instance : DecidableLE α := decidableLE

instance : DecidableLT α := decidableLT

/-! ## Choosing between two numbers -/

/-- The smaller number, the second of two equal ones; a value that compares with nothing, not even
with itself, gives way to the other. -/
def min (x y : α) : α :=
  if y ≤ x then y else if x ≤ x then x else y

/-- The larger number, the second of two equal ones; a value that compares with nothing gives way
to the other. -/
def max (x y : α) : α :=
  if x ≤ y then y else if x ≤ x then x else y

/-- Moves a number into the range from `lo` to `hi`; a value that compares with nothing stays. -/
def clamp (x lo hi : α) : α :=
  if x < lo then lo else if hi < x then hi else x

/-- The length of the vector `(x, y)`. -/
def hypot (x y : α) : α :=
  sqrt (x * x + y * y)

/-- A size in whole pixels: cut toward zero, and no more than 32 bits hold. -/
def pixels (x : α) : Nat :=
  Nat.min (toNat x) 0xffffffff

end Scalar

end GraphBoard
