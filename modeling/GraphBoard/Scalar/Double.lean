import GraphBoard.Scalar
import GraphBoard.Binary64

/-!
# GraphBoard.Scalar.Double

Doubles as the numbers of coordinates. Sums, products, quotients and square roots are rounded to
the nearest double; rounding to whole numbers and the remainder are exact.
-/

namespace GraphBoard

instance : Scalar Float where
  decidableLE := inferInstance
  decidableLT := inferInstance
  ofNat := Float.ofNat
  abs := Float.abs
  sqrt := Float.sqrt
  floor := Binary64.floor
  round := Binary64.round
  rem := Binary64.rem
  pi := 3.141592653589793
  cos := Float.cos
  sin := Float.sin
  toNat := Binary64.toNat

end GraphBoard
