import GraphBoard.Scalar

/-!
# GraphBoard.Point

Points of the plane, in graph units or in pixels.
-/

namespace GraphBoard

/-- A point of the plane; the vertical coordinate grows downward. -/
structure Point (α : Type) where
  /-- Horizontal coordinate. -/
  x : α
  /-- Vertical coordinate. -/
  y : α
deriving BEq, DecidableEq, Repr

namespace Point

variable {α : Type} [Scalar α]

/-- The point with both coordinates zero. -/
def origin : Point α := ⟨0.0, 0.0⟩

/-- The upper left corner of the smallest upright box that holds a nonempty list of points: the
smallest of each coordinate, the last one where several are equal. -/
def corner (p : Point α) (ps : List (Point α)) : Point α :=
  ps.foldl (fun c q => ⟨Scalar.min c.x q.x, Scalar.min c.y q.y⟩) p

end Point

end GraphBoard
