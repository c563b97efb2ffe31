import GraphBoard.Drawing.Grid
import GraphBoard.Drawing.Edge

/-!
# GraphBoard.Drawing.Picture

The picture of a board: the background, then under the view's transform the grid, the edges, the
edge being drawn, and the nodes.
-/

namespace GraphBoard

variable {α : Type} [Scalar α]

namespace Drawing

/-- The background, and the transform of all that follows. -/
def opening (v : View α) : List (Call α) :=
  [.fillStyle (.color Color.background), .fillRect .origin v.width v.height, .save,
    .translate ⟨v.transform.x, v.transform.y⟩, .scale v.transform.k v.transform.k]

/-- The items of the board. -/
def contents (v : View α) (e : Editor α) (p : Positions α) (gradients : Bool) : List (Call α) :=
  edges v e.graph e.selection p ++ draft v p ++
    nodes v e.selection p gradients 0 e.graph.nodes

/-- The grid, in the layout that snaps nodes to it. -/
def grid? (v : View α) (l : Layout) : Option (List (Call α)) :=
  match l with
  | .snapToGrid => Grid.draw v
  | _ => some []

end Drawing

/-- Draws a board, with gradients where they can be made. There is no picture if the grid has no
end. -/
def View.draw (v : View α) (e : Editor α) (p : Positions α) (l : Layout) (gradients : Bool) :
    Option (List (Call α)) :=
  (Drawing.grid? v l).map fun grid =>
    Drawing.opening v ++ grid ++ Drawing.contents v e p gradients ++ [.restore]

end GraphBoard
