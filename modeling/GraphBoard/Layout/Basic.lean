import GraphBoard.Layout.Tree

/-!
# GraphBoard.Layout.Basic

Layouts: from a graph to the points where its nodes are drawn.
-/

namespace GraphBoard

/-- The points where nodes are drawn. -/
structure Positions (α : Type) where
  /-- Each node with its point. -/
  entries : List (NodeKey × Point α)
deriving BEq, DecidableEq, Repr

namespace Positions

variable {α : Type}

/-- Where a node is drawn, if it has a place. -/
def get? (p : Positions α) (k : NodeKey) : Option (Point α) := p.entries.lookup k

end Positions

/-- How the points are chosen. -/
inductive Layout where
  /-- Where the nodes are stored. -/
  | stored
  /-- At the nearest points of a grid. -/
  | snapToGrid
  /-- In levels below the roots. -/
  | verticalTree
deriving DecidableEq, Repr

namespace Layout

/-! ## Names -/

/-- Every layout, in the order of the list that offers them. -/
def all : List Layout := [.stored, .snapToGrid, .verticalTree]

/-- The name under which a layout is asked for. -/
def value : Layout → String
  | stored => "None"
  | snapToGrid => "SnapToGrid"
  | verticalTree => "VerticalTree"

/-- The name that is shown. -/
def label : Layout → String
  | stored => "None"
  | snapToGrid => "Snap to Grid"
  | verticalTree => "Vertical Tree"

/-- The layout of a name; nothing else moves a node. -/
def ofValue (s : String) : Layout := (all.find? (·.value == s)).getD stored

/-- The layout that a board starts with. -/
def initial : Layout := verticalTree

/-! ## Points -/

variable {α : Type} [Scalar α]

/-- The distance of neighbouring grid lines. -/
def gridSpacing : α := 10.0

/-- The distance of neighbours in a level of the tree. -/
def treeSpacingX : α := 180.0

/-- The distance of the levels of the tree. -/
def treeSpacingY : α := 150.0

/-- The nearest point of the grid. -/
def snap (p : Point α) : Point α :=
  ⟨Scalar.round (p.x / gridSpacing) * gridSpacing, Scalar.round (p.y / gridSpacing) * gridSpacing⟩

/-- The point of the `i`-th of `count` nodes at a depth: a level is centred above the others. -/
def treePoint (count depth i : Nat) : Point α :=
  let offset : α := (Scalar.ofNat count - 1.0) / 2.0
  ⟨(Scalar.ofNat i - offset) * treeSpacingX, Scalar.ofNat depth * treeSpacingY⟩

/-- The nodes of a level with their points. -/
def levelEntries (level : List NodeKey) (depth : Nat) : List (NodeKey × Point α) :=
  level.zipIdx.map fun (k, i) => (k, treePoint level.length depth i)

/-- Where a layout draws the nodes of a graph. -/
def positions (l : Layout) (g : Graph α) : Positions α :=
  match l with
  | stored => ⟨g.nodes.map fun n => (n.key, n.position)⟩
  | snapToGrid => ⟨g.nodes.map fun n => (n.key, snap n.position)⟩
  | verticalTree => ⟨(Tree.levels g).zipIdx.flatMap fun (level, depth) => levelEntries level depth⟩

end Layout

end GraphBoard
