import GraphBoard.Layout.Basic

/-!
# GraphBoard.View.Basic

The view of a board: what part of it is on the screen, which gesture is going on, and what the
pointer is over. A screen point is in pixels from the upper left corner of the canvas; a graph
point is in the units of the graph.
-/

namespace GraphBoard

/-- A graph point `p` is on the screen at `k * p + (x, y)`. -/
structure Transform (α : Type) where
  /-- Where the graph's origin is, in pixels from the left. -/
  x : α
  /-- Where the graph's origin is, in pixels from above. -/
  y : α
  /-- The pixels of a graph unit. -/
  k : α
deriving BEq, DecidableEq, Repr

/-- A node being dragged. -/
structure Drag (α : Type) where
  /-- Whether the button is down. -/
  active : Bool
  /-- The node. -/
  node : Option NodeKey
  /-- Whether the pointer has gone far enough for the node to follow. -/
  moved : Bool
  /-- The screen point of the press. -/
  start : Point α
  /-- Where the node was drawn at the press. -/
  nodeStart : Point α
  /-- Where the node is drawn now. -/
  current : Point α
deriving BEq, DecidableEq, Repr

/-- The background being dragged. -/
structure Pan (α : Type) where
  /-- Whether the button is down. -/
  active : Bool
  /-- Whether the pointer has gone far enough for the picture to follow. -/
  moved : Bool
  /-- The screen point of the press. -/
  start : Point α
  /-- Where the graph's origin was at the press. -/
  origin : Point α
deriving BEq, DecidableEq, Repr

/-- An edge being drawn, or an end of an edge being led to another node. -/
structure Draft (α : Type) where
  /-- The node it leaves. -/
  source : NodeKey
  /-- The edge that it is to replace, if any. -/
  replacing : Option EdgeKey
  /-- The graph point where it ends for now. -/
  cursor : Point α
deriving BEq, DecidableEq, Repr

/-- The state of a view. -/
structure View (α : Type) where
  /-- What part of the board is on the screen. -/
  transform : Transform α
  /-- The drag of a node. -/
  drag : Drag α
  /-- The drag of the background. -/
  pan : Pan α
  /-- The edge being drawn. -/
  draft : Option (Draft α)
  /-- The node under the pointer. -/
  hover : Option NodeKey
  /-- The graph point of the pointer's last move. -/
  pointer : Point α
  /-- The width in pixels. -/
  width : α
  /-- The height in pixels. -/
  height : α
  /-- The time that moving dashes have run. -/
  flowTime : α
deriving BEq, DecidableEq, Repr

variable {α : Type} [Scalar α]

/-- No drag. -/
def Drag.idle : Drag α := ⟨false, none, false, .origin, .origin, .origin⟩

/-- No pan. -/
def Pan.idle : Pan α := ⟨false, false, .origin, .origin⟩

namespace View

/-- A view of a size, with the graph's origin at the middle of the upper half. -/
def ofSize (width height : α) : View α where
  transform := ⟨width / 2.0, height / 4.0, 1.0⟩
  drag := .idle
  pan := .idle
  draft := none
  hover := none
  pointer := .origin
  width := width
  height := height
  flowTime := 0.0

/-! ## Points -/

/-- The graph point at a screen point. -/
def toGraph (v : View α) (s : Point α) : Point α :=
  ⟨(s.x - v.transform.x) / v.transform.k, (s.y - v.transform.y) / v.transform.k⟩

/-- Where a node is drawn: a node that is dragged follows the pointer, the others are where the
layout puts them. -/
def displayPoint (v : View α) (p : Positions α) (k : NodeKey) : Option (Point α) :=
  if v.drag.moved && v.drag.node == some k then some v.drag.current else p.get? k

/-! ## Moving the view -/

/-- Brings a graph point to the middle of the view. -/
def centerOn (v : View α) (p : Point α) : View α :=
  { v with transform :=
      ⟨v.width / 2.0 - p.x * v.transform.k, v.height / 2.0 - p.y * v.transform.k, v.transform.k⟩ }

/-- The smallest zoom. -/
def minZoom : α := 0.1

/-- The largest zoom. -/
def maxZoom : α := 10.0

/-- Zooms about a screen point, within the limits of zoom. -/
def zoomAt (v : View α) (s : Point α) (factor : α) : View α :=
  let k := Scalar.clamp (v.transform.k * factor) minZoom maxZoom
  let ratio := k / v.transform.k
  { v with transform :=
      ⟨s.x - (s.x - v.transform.x) * ratio, s.y - (s.y - v.transform.y) * ratio, k⟩ }

/-- Lets time pass. -/
def tick (v : View α) (dt : α) : View α := { v with flowTime := v.flowTime + dt }

/-- Takes another size. -/
def resize (v : View α) (width height : α) : View α := { v with width, height }

/-- Ends every gesture. -/
def endGestures (v : View α) : View α :=
  { v with drag := .idle, pan := { v.pan with active := false }, draft := none }

end View

end GraphBoard
