import GraphBoard.View.Basic
import GraphBoard.View.Outline

/-!
# GraphBoard.View.Pick

What is under a screen point. Items are searched from the topmost down, nodes by the box around
their shape and edges by their distance.
-/

namespace GraphBoard

variable {α : Type} [Scalar α]

/-- How near the pointer has to come to a line, in pixels. -/
def hitSlack : α := 6.0

/-- The radius of the handle of an edge, in pixels. -/
def handleRadius : α := 7.0

/-- The squared length below which a segment counts as a point: the distance from one to the next
double. -/
def shortSegment : α := 1.0 / 4503599627370496.0

/-- The distance of `p` to the segment from `a` to `b`. -/
def distanceToSegment (p a b : Point α) : α :=
  let vx := b.x - a.x
  let vy := b.y - a.y
  let squared := vx * vx + vy * vy
  let t :=
    if squared < shortSegment then 0.0
    else Scalar.clamp (((p.x - a.x) * vx + (p.y - a.y) * vy) / squared) 0.0 1.0
  let cx := a.x + vx * t - p.x
  let cy := a.y + vy * t - p.y
  Scalar.sqrt (cx * cx + cy * cy)

namespace View

/-- Whether a graph point is in the box around the shape of a node. -/
def covers (v : View α) (p : Positions α) (spot : Point α) (n : Node α) : Bool :=
  match v.displayPoint p n.key with
  | none => false
  | some c =>
    let e : HalfExtent α := n.kind.halfExtent
    Scalar.abs (spot.x - c.x) ≤ e.width && Scalar.abs (spot.y - c.y) ≤ e.height

/-- The topmost node under a screen point. -/
def nodeAt (v : View α) (g : Graph α) (p : Positions α) (s : Point α) : Option NodeKey :=
  (g.nodes.reverse.find? (v.covers p (v.toGraph s))).map Node.key

/-- Whether a graph point is near the line of an edge. -/
def near (v : View α) (p : Positions α) (spot : Point α) (e : Edge) : Bool :=
  match v.displayPoint p e.source, v.displayPoint p e.target with
  | some a, some b => distanceToSegment spot a b ≤ hitSlack / v.transform.k
  | _, _ => false

/-- The topmost edge near a screen point. -/
def edgeAt (v : View α) (g : Graph α) (p : Positions α) (s : Point α) : Option EdgeKey :=
  (g.edges.reverse.find? (v.near p (v.toGraph s))).map Edge.key

/-- Where the handle of an edge is: where the edge meets the outline of the node it enters. -/
def edgeHandle? (v : View α) (g : Graph α) (p : Positions α) (k : EdgeKey) : Option (Point α) := do
  let a ← v.displayPoint p k.source
  let b ← v.displayPoint p k.target
  let n ← g.node? k.target
  return boundaryPoint b a n.kind

/-- Whether a screen point is on the handle of an edge. -/
def onHandle (v : View α) (g : Graph α) (p : Positions α) (k : EdgeKey) (s : Point α) : Bool :=
  match v.edgeHandle? g p k with
  | none => false
  | some handle =>
    let spot := v.toGraph s
    let dx := spot.x - handle.x
    let dy := spot.y - handle.y
    Scalar.sqrt (dx * dx + dy * dy) ≤ (handleRadius + hitSlack) / v.transform.k

end View

end GraphBoard
