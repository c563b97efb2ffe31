import GraphBoard.Drawing.Call
import GraphBoard.View.Basic

/-!
# GraphBoard.Drawing.Grid

The grid behind a board whose nodes are snapped to it. Lines are drawn at every fifth grid line, as
far as the view reaches, unless they would be too dense.

A walk from line to line adds the same step again and again. It comes to its end if adding the step
gets it there; `walk` answers `none` if it does not.
-/

namespace GraphBoard.Grid

variable {α : Type} [Scalar α]

/-- The distance of the lines drawn. -/
def step : α := Layout.gridSpacing * 5.0

/-- How many lines across the width are too many. -/
def crowded : α := 400.0

/-- The numbers from `x` on, step by step, as long as they are not above `stop`; none if `bound`
steps do not lead above it. -/
def walk (stop : α) : (bound : Nat) → α → Option (List α)
  | 0, x => if x ≤ stop then none else some []
  | bound + 1, x => if x ≤ stop then (walk stop bound (x + step)).map (x :: ·) else some []

/-- A bound on the steps from `x` to above `stop`: twice as many as the distance holds, since a
step of rounded numbers may fall short of its length. -/
def stepBound (x stop : α) : Nat := 2 * Scalar.toNat ((stop - x) / step) + 2

/-- Where the lines of a range are: at the multiples of the step from the one at or before its start
up to its end. -/
def lines (start stop : α) : Option (List α) :=
  let x := Scalar.floor (start / step) * step
  walk stop (stepBound x stop) x

/-- The line at `x` from above to below. -/
def vertical (topLeft bottomRight : Point α) (x : α) : List (Call α) :=
  [.moveTo ⟨x, topLeft.y⟩, .lineTo ⟨x, bottomRight.y⟩]

/-- The line at `y` from left to right. -/
def horizontal (topLeft bottomRight : Point α) (y : α) : List (Call α) :=
  [.moveTo ⟨topLeft.x, y⟩, .lineTo ⟨bottomRight.x, y⟩]

/-- Draws the grid. There is no drawing if a walk does not come to its end. -/
def draw (v : View α) : Option (List (Call α)) := do
  let topLeft := v.toGraph .origin
  let bottomRight := v.toGraph ⟨v.width, v.height⟩
  if crowded < (bottomRight.x - topLeft.x) / step then
    return []
  else
    let xs ← lines topLeft.x bottomRight.x
    let ys ← lines topLeft.y bottomRight.y
    return [.strokeStyle Color.grid, .lineWidth (1.0 / v.transform.k), .beginPath] ++
      xs.flatMap (vertical topLeft bottomRight) ++ ys.flatMap (horizontal topLeft bottomRight) ++
      [.stroke]

end GraphBoard.Grid
