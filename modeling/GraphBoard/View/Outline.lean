import GraphBoard.Graph.Item

/-!
# GraphBoard.View.Outline

How large the shapes of nodes are, and where edges meet them.
-/

namespace GraphBoard

variable {α : Type} [Scalar α]

/-- The radius of round shapes. -/
def nodeRadius : α := 22.0

/-- Half the width and half the height of a shape. -/
structure HalfExtent (α : Type) where
  /-- Half the width. -/
  width : α
  /-- Half the height. -/
  height : α
deriving BEq, DecidableEq, Repr

/-- How far a node's main shape reaches from its centre. -/
def NodeKind.halfExtent : NodeKind → HalfExtent α
  | .skinny => ⟨75.0, 16.0⟩
  | .special => ⟨26.0, 26.0⟩
  | _ => ⟨nodeRadius, nodeRadius⟩

/-- The distance below which two points have no direction to one another. -/
def smallDistance : α := 0.001

/-- The share of the way from a centre by `dx` and `dy` that lies inside the outline. -/
def NodeKind.insideShare (kind : NodeKind) (dx dy distance : α) : α :=
  let e : HalfExtent α := kind.halfExtent
  match kind with
  | .skinny =>
    Scalar.min (e.width / Scalar.max (Scalar.abs dx) smallDistance)
      (e.height / Scalar.max (Scalar.abs dy) smallDistance)
  | _ => e.width / distance

/-- Where the line from the centre of a node to another point leaves the node's outline; the other
point itself if that comes first, and the centre if the points are too near for a direction. -/
def boundaryPoint (center toward : Point α) (kind : NodeKind) : Point α :=
  let dx := toward.x - center.x
  let dy := toward.y - center.y
  let distance := Scalar.sqrt (dx * dx + dy * dy)
  if distance < smallDistance then center
  else
    let t := Scalar.min (kind.insideShare dx dy distance) 1.0
    ⟨center.x + dx * t, center.y + dy * t⟩

end GraphBoard
