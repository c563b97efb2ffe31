import GraphBoard.Scalar
import GraphBoard.Point

/-!
# GraphBoard.Session.Page

The page that a canvas is on, as far as it decides what the canvas does: the window and its size,
the element around the canvas, and the canvas itself.
-/

namespace GraphBoard

/-- The page around a canvas. -/
structure Page (α : Type) where
  /-- Whether there is a window. -/
  hasWindow : Bool
  /-- The inner width of the window, where it is a number. -/
  innerWidth : Option α
  /-- The inner height of the window, where it is a number. -/
  innerHeight : Option α
  /-- The width and height of the element around the canvas, if there is one. -/
  parent : Option (α × α)
  /-- Where the canvas is in the window. -/
  corner : Point α
  /-- Whether the canvas can be drawn on. -/
  drawable : Bool
  /-- Whether the canvas is on the page. -/
  attached : Bool

/-- How large a canvas is wanted. -/
structure Sizing (α : Type) where
  /-- Whether it fills the window. -/
  fullscreen : Bool
  /-- The width, if one is given. -/
  width : Option α
  /-- The height, if one is given. -/
  height : Option α

namespace Page

variable {α : Type} [Scalar α]

/-- The inner size of the window, if there is a window and both its sides are numbers. -/
def windowSize? (pg : Page α) : Option (α × α) :=
  if pg.hasWindow then
    match pg.innerWidth, pg.innerHeight with
    | some w, some h => some (w, h)
    | _, _ => none
  else none

/-- The size of a canvas where nothing else decides it. -/
def usualSize : α × α := (800.0, 600.0)

/-- The size that a canvas takes: that of the window if it fills it; else each side as given, or as
the element around it has it. -/
def canvasSize (pg : Page α) (sz : Sizing α) : α × α :=
  if sz.fullscreen then pg.windowSize?.getD usualSize
  else
    let around := pg.parent.getD usualSize
    (sz.width.getD around.1, sz.height.getD around.2)

/-- The canvas point at a point of the window, if there is a canvas. -/
def canvasPoint? (pg : Page α) (client : Point α) : Option (Point α) :=
  if pg.attached then some ⟨client.x - pg.corner.x, client.y - pg.corner.y⟩ else none

end Page

end GraphBoard
