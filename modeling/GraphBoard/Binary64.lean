/-!
# GraphBoard.Binary64

The exact value of a finite double, `±significand · 2 ^ exponent`, and the operations on doubles
that are decided on that exact value: rounding to whole numbers and the remainder of a division.
-/

namespace GraphBoard

/-- The exact value `±significand · 2 ^ exponent` of a finite double. -/
structure Binary64 where
  /-- Whether the sign is minus; zero has a sign too. -/
  negative : Bool
  /-- The significand, below `2 ^ 53`. -/
  significand : Nat
  /-- The power of two, from `-1074` to `971`. -/
  exponent : Int
deriving DecidableEq, Repr

namespace Binary64

/-! ## Reading and building doubles -/

/-- The weight of the sign bit in the 64 bits of a double. -/
def signBit : Nat := 0x8000000000000000

/-- The weight of the lowest bit of the exponent in the 64 bits of a double; the 52 bits below are
those of the fraction. -/
def fractionUnit : Nat := 0x10000000000000

/-- The exact value of a double, if it is finite. -/
def ofFloat? (x : Float) : Option Binary64 :=
  let bits : Nat := x.toBits.toNat
  let negative := decide (signBit ≤ bits)
  let biased : Nat := bits / fractionUnit % 2048
  let fraction : Nat := bits % fractionUnit
  if biased = 2047 then
    none
  else if biased = 0 then
    some ⟨negative, fraction, -1074⟩
  else
    some ⟨negative, fractionUnit + fraction, (biased : Int) - 1075⟩

/-- The double `2 ^ e`, for `e` from `-1074` to `1023`. -/
def twoPow (e : Int) : Float :=
  if -1022 ≤ e then
    Float.ofBits (UInt64.ofNat ((e + 1023).toNat * fractionUnit))
  else
    Float.ofBits (UInt64.ofNat (Nat.pow 2 (e + 1074).toNat))

/-- The double with a given magnitude and sign. -/
def signed (negative : Bool) (magnitude : Float) : Float :=
  if negative then -magnitude else magnitude

/-! ## Whole numbers -/

/-- The number of places behind the binary point. -/
def places (b : Binary64) : Nat := (-b.exponent).toNat

/-- The magnitude cut to a whole number, for values that have places behind the point. -/
def whole (b : Binary64) : Nat := b.significand / Nat.pow 2 b.places

/-- What `whole` cuts off, in units of the last place. -/
def cutOff (b : Binary64) : Nat := b.significand % Nat.pow 2 b.places

/-- The greatest whole double that is not above; a value without places behind the point, an
infinity and a value that is no number stay. -/
def floor (x : Float) : Float :=
  match ofFloat? x with
  | none => x
  | some b =>
    if b.places = 0 then x
    else if b.negative && b.cutOff != 0 then -Float.ofNat (b.whole + 1)
    else signed b.negative (Float.ofNat b.whole)

/-- The nearest whole double with the sign kept, also of zero; a half goes away from zero. -/
def round (x : Float) : Float :=
  match ofFloat? x with
  | none => x
  | some b =>
    if b.places = 0 then x
    else if Nat.pow 2 b.places ≤ 2 * b.cutOff then signed b.negative (Float.ofNat (b.whole + 1))
    else signed b.negative (Float.ofNat b.whole)

/-- The whole part of the magnitude of a double as a count: zero below zero and for what is no
number, and the largest 64-bit word for what is larger. -/
def toNat (x : Float) : Nat := x.toUInt64.toNat

/-! ## Remainder -/

/-- The exact remainder of two finite values, the divisor not zero: both are written over the
smaller of the two powers of two and divided as whole numbers. -/
def remainder (a b : Binary64) : Float :=
  let e := min a.exponent b.exponent
  let dividend := a.significand * Nat.pow 2 (a.exponent - e).toNat
  let divisor := b.significand * Nat.pow 2 (b.exponent - e).toNat
  signed a.negative (Float.ofNat (dividend % divisor) * twoPow e)

/-- The remainder of the division of `x` by `y` cut toward zero. It has the sign of `x`, is `x`
for an infinite `y`, and is no number for an infinite `x` or a zero `y`. -/
def rem (x y : Float) : Float :=
  match ofFloat? x, ofFloat? y with
  | some a, some b => if b.significand = 0 then 0.0 / 0.0 else remainder a b
  | some _, none => if y.isInf then x else y
  | none, _ => 0.0 / 0.0

end Binary64

end GraphBoard
