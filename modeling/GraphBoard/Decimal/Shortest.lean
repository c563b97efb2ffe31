import GraphBoard.Binary64

/-!
# GraphBoard.Decimal.Shortest

The shortest decimal that reads back as a given double. The reals that round to a double form an
interval around it; the shortest decimal is the point of that interval on the coarsest decimal
grid that has one, and of two such points the nearer.
-/

namespace GraphBoard

/-- The decimal `digits · 10 ^ exponent`. -/
structure Decimal where
  /-- The digits, read as a whole number. -/
  digits : Nat
  /-- The power of ten. -/
  exponent : Int
deriving DecidableEq, Repr

namespace Decimal

/-- A positive real `value / scale` with the ends of the interval that rounds to it, all over one
denominator. -/
structure Interval where
  /-- The lower end. -/
  lower : Nat
  /-- The value. -/
  value : Nat
  /-- The upper end. -/
  upper : Nat
  /-- The common denominator. -/
  scale : Nat
  /-- Whether the ends themselves round to the value. -/
  closed : Bool
deriving Repr

namespace Interval

/-- The interval of the reals that round to `significand · 2 ^ exponent`. Its ends lie half a unit
of the last place away, a quarter below a power of two; they belong to it iff the significand is
even. -/
def ofDouble (significand : Nat) (exponent : Int) : Interval :=
  let q := exponent - 2
  let up := Nat.pow 2 q.toNat
  let below := if significand = Binary64.fractionUnit ∧ -1074 < exponent then 1 else 2
  { lower := (4 * significand - below) * up
    value := 4 * significand * up
    upper := (4 * significand + 2) * up
    scale := Nat.pow 2 (-q).toNat
    closed := significand % 2 = 0 }

/-- Whether the real `point / scale` rounds to the value. -/
def holds (i : Interval) (point : Nat) : Bool :=
  if i.closed then i.lower ≤ point && point ≤ i.upper else i.lower < point && point < i.upper

/-- The interval with all its numbers over a denominator `factor` times as large. -/
def refine (i : Interval) (factor : Nat) : Interval :=
  { i with
    lower := i.lower * factor
    value := i.value * factor
    upper := i.upper * factor
    scale := i.scale * factor }

/-- The point of the interval on the grid of the multiples of `10 ^ e`, as the multiple: one of
the value's two neighbours, the nearer if both round to it, the upper one at the same distance. -/
def onGrid? (i : Interval) (e : Int) : Option Nat :=
  let unit := Nat.pow 10 e.toNat * i.scale
  let i := i.refine (Nat.pow 10 (-e).toNat)
  let below := i.value / unit
  let above := below + 1
  match i.holds (below * unit), i.holds (above * unit) with
  | true, true => some (if i.value - below * unit < above * unit - i.value then below else above)
  | true, false => some below
  | false, true => some above
  | false, false => none

end Interval

/-- The shortest decimal that reads back as the positive double `significand · 2 ^ exponent`. The
grids run from one above every double down to one that holds every double. -/
def shortest (significand : Nat) (exponent : Int) : Decimal :=
  let i := Interval.ofDouble significand exponent
  let top := (toString (i.value / i.scale)).length
  let grids := (List.range (top + 1100)).map fun (n : Nat) => (top : Int) - (n : Int)
  match grids.findSome? fun e => (i.onGrid? e).map (⟨·, e⟩) with
  | some d => d
  | none => ⟨significand, exponent⟩

/-- A decimal written with digits and a point alone: no exponent, no digit behind the point that
is not needed, and at least one before it. -/
def positional (d : Decimal) : String :=
  let digits := toString d.digits
  match d.exponent with
  | .ofNat e => digits ++ String.ofList (List.replicate e '0')
  | .negSucc e =>
    let places := e + 1
    let padded := String.ofList (List.replicate (places + 1 - digits.length) '0') ++ digits
    let cs := padded.toList
    String.ofList (cs.take (cs.length - places)) ++ "." ++
      String.ofList (cs.drop (cs.length - places))

end Decimal

namespace Binary64

/-- A double in the fewest digits that read back as it, never with an exponent; whole numbers have
no point. -/
def toText (x : Float) : String :=
  match ofFloat? x with
  | none => if x.isNaN then "NaN" else if x < 0.0 then "-inf" else "inf"
  | some b =>
    let magnitude :=
      if b.significand = 0 then "0" else (Decimal.shortest b.significand b.exponent).positional
    if b.negative then "-" ++ magnitude else magnitude

end Binary64

end GraphBoard
