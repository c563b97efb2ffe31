import GraphBoard.Point
import GraphBoard.Decimal.Shortest

/-!
# GraphBoard.Drawing.Call

The calls made on a two-dimensional drawing context, and the colours they are made with. A picture
is a list of calls in their order.
-/

namespace GraphBoard

/-- A colour, as drawing contexts write it. -/
abbrev Color := String

/-- What shapes are filled with. -/
inductive Paint where
  /-- One colour. -/
  | color (c : Color)
  /-- A gradient, by its number among those of the picture. -/
  | gradient (number : Nat)
deriving DecidableEq, Repr

/-- A call on a drawing context. -/
inductive Call (α : Type) where
  /-- Fills a rectangle. -/
  | fillRect (corner : Point α) (width height : α)
  /-- Remembers the state of the context. -/
  | save
  /-- Goes back to the remembered state. -/
  | restore
  /-- Moves the origin. -/
  | translate (shift : Point α)
  /-- Scales both axes. -/
  | scale (x y : α)
  /-- Starts a path. -/
  | beginPath
  /-- Leads the path back to its start. -/
  | closePath
  /-- Draws along the path. -/
  | stroke
  /-- Fills the path. -/
  | fill
  /-- Starts a line at a point. -/
  | moveTo (p : Point α)
  /-- Leads the line to a point. -/
  | lineTo (p : Point α)
  /-- Adds a rectangle to the path. -/
  | rect (corner : Point α) (width height : α)
  /-- Adds an arc to the path. -/
  | arc (center : Point α) (radius start stop : α)
  /-- Writes text, squeezed into a width if one is given. -/
  | fillText (text : String) (p : Point α) (maxWidth : Option α)
  /-- Makes a gradient between two circles about a point. -/
  | createRadialGradient (center : Point α) (inner outer : α)
  /-- Gives a gradient a colour at a share of the way. -/
  | addColorStop (gradient : Nat) (offset : α) (c : Color)
  /-- Sets the lengths of dashes and gaps. -/
  | setLineDash (lengths : List α)
  /-- Sets what is filled with. -/
  | fillStyle (p : Paint)
  /-- Sets the colour of lines. -/
  | strokeStyle (c : Color)
  /-- Sets the width of lines. -/
  | lineWidth (width : α)
  /-- Sets where in the dashes a line starts. -/
  | lineDashOffset (offset : α)
  /-- Sets the opacity of everything. -/
  | globalAlpha (opacity : α)
  /-- Sets the size of letters. -/
  | font (size : α)
  /-- Sets where text is relative to its point, from left to right. -/
  | textAlign (mode : String)
  /-- Sets where text is relative to its point, from above. -/
  | textBaseline (mode : String)
deriving BEq, DecidableEq, Repr

/-- How a size of letters is written: the size in pixels and the family. -/
def fontText (size : Float) : String := Binary64.toText size ++ "px sans-serif"

namespace Color

/-- The background of the board. -/
def background : Color := "#1a1a2e"

/-- What is chosen. -/
def selected : Color := "#ffd166"

/-- Edges. -/
def edge : Color := "rgba(100, 180, 255, 0.7)"

/-- The lines of the grid. -/
def grid : Color := "rgba(255, 255, 255, 0.05)"

/-- An edge being drawn. -/
def draft : Color := "rgba(255, 255, 255, 0.6)"

/-- The outlines of nodes. -/
def outline : Color := "rgba(255, 255, 255, 0.5)"

/-- The ring inside a circle. -/
def ring : Color := "rgba(255, 255, 255, 0.7)"

/-- Titles and handles. -/
def white : Color := "white"

end Color

end GraphBoard
