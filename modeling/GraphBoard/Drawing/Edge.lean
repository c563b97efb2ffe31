import GraphBoard.Drawing.Node
import GraphBoard.View.Pick

/-!
# GraphBoard.Drawing.Edge

How edges are drawn: a shaft from outline to outline, an arrowhead, and the handle of an edge that
is chosen alone. Widths and lengths are in pixels, so they are divided by the zoom.
-/

namespace GraphBoard.Drawing

variable {α : Type} [Scalar α]

/-- The sizes of edges at a zoom. -/
structure EdgeStyle (α : Type) where
  /-- The width of the line. -/
  lineWidth : α
  /-- The length of a dash. -/
  dash : α
  /-- The length of a gap. -/
  gap : α
  /-- The length of the arrowhead. -/
  arrow : α
  /-- Where in the dashes a line starts. -/
  dashOffset : α

/-- The sizes of edges in a view. Dashes flow towards the target. -/
def EdgeStyle.ofView (v : View α) : EdgeStyle α :=
  let k := v.transform.k
  let dash := 8.0 / k
  let gap := 4.0 / k
  { lineWidth := 1.5 / k
    dash := dash
    gap := gap
    arrow := 8.0 / k
    dashOffset := Scalar.rem (-(v.flowTime * 30.0)) (dash + gap) }

/-- Sets the dashes of an edge. -/
def dashes (st : EdgeStyle α) : EdgeKind → List (Call α)
  | .special => [.setLineDash [st.dash, st.gap], .lineDashOffset st.dashOffset]
  | .empty => []

/-- The arrowhead at the end of an edge in the direction `(ux, uy)`. -/
def arrowhead (tip : Point α) (ux uy size : α) : List (Call α) :=
  let backX := tip.x - ux * size
  let backY := tip.y - uy * size
  let px := -uy * size * 0.5
  let py := ux * size * 0.5
  [.beginPath, .moveTo tip, .lineTo ⟨backX + px, backY + py⟩, .lineTo ⟨backX - px, backY - py⟩,
    .closePath, .fill]

/-- The handle at the end of an edge. -/
def handle (tip : Point α) (k lineWidth : α) : List (Call α) :=
  [.beginPath, circle tip (handleRadius / k), .fillStyle (.color Color.white), .fill,
    .strokeStyle Color.selected, .lineWidth lineWidth, .stroke]

/-- Draws an edge from one point of an outline to another, unless they are too near. -/
def arrow (v : View α) (s : Selection) (e : Edge) (start tip : Point α) : List (Call α) :=
  let st := EdgeStyle.ofView v
  let dx := tip.x - start.x
  let dy := tip.y - start.y
  let distance := Scalar.sqrt (dx * dx + dy * dy)
  if distance < smallDistance then []
  else
    let selected := s.hasEdge e.key
    let color := if selected then Color.selected else Color.edge
    let ux := dx / distance
    let uy := dy / distance
    [.strokeStyle color, .lineWidth (if selected then st.lineWidth * 2.0 else st.lineWidth)] ++
      dashes st e.kind ++
      [.beginPath, .moveTo start, .lineTo ⟨tip.x - ux * st.arrow, tip.y - uy * st.arrow⟩, .stroke,
        .setLineDash [], .fillStyle (.color color)] ++
      arrowhead tip ux uy st.arrow ++
      (if selected && s.singleEdge? == some e.key then handle tip v.transform.k st.lineWidth
        else [])

/-- Draws an edge between the outlines of its ends, if they have places. -/
def edge (v : View α) (g : Graph α) (s : Selection) (p : Positions α) (e : Edge) : List (Call α) :=
  match v.displayPoint p e.source, v.displayPoint p e.target, g.node? e.source,
    g.node? e.target with
  | some a, some b, some source, some target =>
    arrow v s e (boundaryPoint a b source.kind) (boundaryPoint b a target.kind)
  | _, _, _, _ => []

/-- Draws the edges one above the other. -/
def edges (v : View α) (g : Graph α) (s : Selection) (p : Positions α) : List (Call α) :=
  g.edges.flatMap (edge v g s p)

/-- Draws the line of an edge that is being drawn, from the node it leaves to the pointer. -/
def draft (v : View α) (p : Positions α) : List (Call α) :=
  match v.draft with
  | none => []
  | some d =>
    match v.displayPoint p d.source with
    | none => []
    | some start =>
      let k := v.transform.k
      [.strokeStyle Color.draft, .lineWidth (1.5 / k), .setLineDash [6.0 / k, 4.0 / k], .beginPath,
        .moveTo start, .lineTo d.cursor, .stroke, .setLineDash []]

end GraphBoard.Drawing
