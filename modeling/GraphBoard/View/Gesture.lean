import GraphBoard.View.Pick
import GraphBoard.Editor.Basic

/-!
# GraphBoard.View.Gesture

What presses, moves and releases of the pointer do to a view, and which events of the board they
mean. The view never changes the board: it answers the event, if there is one.

A press starts a gesture on what is under it: the handle of the chosen edge, a node, an edge or the
background. The gesture becomes a movement when the pointer has gone a few pixels, and the release
ends whatever is going on.
-/

namespace GraphBoard.View

variable {α : Type} [Scalar α]

/-- How far the pointer has to go for a press to become a movement, in pixels. -/
def dragThreshold : α := 3.0

/-! ## Pressing -/

/-- The edge that is chosen alone, if a screen point is on its handle. -/
def grabbedEdge? (v : View α) (e : Editor α) (p : Positions α) (s : Point α) : Option EdgeKey :=
  match e.selection.singleEdge? with
  | some k => if v.onHandle e.graph p k s then some k else none
  | none => none

/-- Starts an edge that follows the pointer. -/
def startDraft (v : View α) (source : NodeKey) (replacing : Option EdgeKey) (cursor : Point α) :
    View α :=
  { v with draft := some ⟨source, replacing, cursor⟩ }

/-- Starts the drag of a node. -/
def startDrag (v : View α) (p : Positions α) (k : NodeKey) (s : Point α) : View α :=
  let spot := (v.displayPoint p k).getD (v.toGraph s)
  { v with drag := ⟨true, some k, false, s, spot, spot⟩ }

/-- Starts the drag of the background. -/
def startPan (v : View α) (s : Point α) : View α :=
  { v with pan := ⟨true, false, s, ⟨v.transform.x, v.transform.y⟩⟩ }

/-- A press at a screen point. The handle of the chosen edge comes before nodes, nodes before edges,
and edges before the background. With shift, a press starts a new edge on a node and makes a new
node on the background. -/
def press (v : View α) (e : Editor α) (p : Positions α) (s : Point α) (additive shift : Bool) :
    View α × Option (Event α) :=
  let pointer := v.toGraph s
  match v.grabbedEdge? e p s with
  | some k => (v.startDraft k.source (some k) pointer, none)
  | none =>
    match v.nodeAt e.graph p s with
    | some k =>
      if shift then (v.startDraft k none pointer, none)
      else (v.startDrag p k s, some (.selectNode k additive))
    | none =>
      match v.edgeAt e.graph p s with
      | some k => (v, some (.selectEdge k additive))
      | none => if shift then (v, some (.createNode pointer)) else (v.startPan s, none)

/-! ## Moving -/

/-- Whether the pointer has gone far enough from the start of a press. -/
def isMovement (start s : Point α) : Bool :=
  dragThreshold ≤ Scalar.hypot (s.x - start.x) (s.y - start.y)

/-- The node being dragged follows the pointer. -/
def dragTo (v : View α) (s : Point α) : View α :=
  if v.drag.moved || isMovement v.drag.start s then
    { v with drag :=
      { v.drag with
        moved := true
        current :=
          ⟨v.drag.nodeStart.x + (s.x - v.drag.start.x) / v.transform.k,
            v.drag.nodeStart.y + (s.y - v.drag.start.y) / v.transform.k⟩ } }
  else v

/-- The picture being dragged follows the pointer. -/
def panTo (v : View α) (s : Point α) : View α :=
  if v.pan.moved || isMovement v.pan.start s then
    { v with
      pan := { v.pan with moved := true }
      transform :=
        ⟨v.pan.origin.x + (s.x - v.pan.start.x), v.pan.origin.y + (s.y - v.pan.start.y),
          v.transform.k⟩ }
  else v

/-- Takes note of where the pointer is; an edge being drawn ends there. -/
def point (v : View α) (s : Point α) : View α :=
  let pointer := v.toGraph s
  { v with pointer, draft := v.draft.map ({ · with cursor := pointer }) }

/-- A move of the pointer to a screen point. Without a gesture it only tells which node is under the
pointer. -/
def move (v : View α) (g : Graph α) (p : Positions α) (s : Point α) : View α :=
  let v := v.point s
  if v.drag.active then v.dragTo s
  else if v.pan.active then v.panTo s
  else if v.draft.isNone then { v with hover := v.nodeAt g p s }
  else v

/-! ## Releasing -/

/-- The event of an edge that is dropped on a node. -/
def dropDraft (d : Draft α) (target : NodeKey) : Event α :=
  match d.replacing with
  | some k => .swapEdge k d.source target
  | none => .createEdge d.source target

/-- The event of a release at a screen point, if the canvas is there to tell the point. -/
def releaseEvent (v : View α) (g : Graph α) (p : Positions α) (s : Option (Point α)) :
    Option (Event α) :=
  match v.draft with
  | some d => (s.bind fun s => v.nodeAt g p s).map (dropDraft d)
  | none =>
    if v.drag.active && v.drag.moved then
      v.drag.node.map fun k => .updateNode k v.drag.current
    else if v.pan.active && !v.pan.moved then some .clearSelection
    else none

/-- A release of the button. An edge being drawn is not in the way of what is under the pointer. -/
def release (v : View α) (g : Graph α) (p : Positions α) (s : Option (Point α)) :
    View α × Option (Event α) :=
  (v.endGestures, v.releaseEvent g p s)

/-- The pointer leaves the canvas. -/
def leave (v : View α) : View α := { v.endGestures with hover := none }

/-- A turn of the wheel zooms out or in about the pointer. -/
def wheel (v : View α) (s : Point α) (delta : α) : View α :=
  v.zoomAt s (if 0.0 < delta then 0.9 else 1.1)

end GraphBoard.View
