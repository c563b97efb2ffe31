import GraphBoard.Graph.Item

/-!
# GraphBoard.Editor.Event

What the user can do to a board, in terms of the board: an event names nodes, edges and points of
the graph, and no pixels, keys or buttons.
-/

namespace GraphBoard

/-- An interaction with the board. -/
inductive Event (α : Type) where
  /-- A new node is wanted at a point. -/
  | createNode (position : Point α)
  /-- A node was dropped at a point. -/
  | updateNode (key : NodeKey) (position : Point α)
  /-- A node shall go. -/
  | deleteNode (key : NodeKey)
  /-- All that is chosen shall go. -/
  | deleteSelected
  /-- An edge was drawn from one node to another. -/
  | createEdge (source target : NodeKey)
  /-- An end of an edge was dropped on another node. -/
  | swapEdge (edge : EdgeKey) (source target : NodeKey)
  /-- An edge shall go. -/
  | deleteEdge (edge : EdgeKey)
  /-- A node was picked; an additive pick leaves the rest of the selection alone. -/
  | selectNode (key : NodeKey) (additive : Bool)
  /-- An edge was picked; an additive pick leaves the rest of the selection alone. -/
  | selectEdge (edge : EdgeKey) (additive : Bool)
  /-- The background was clicked. -/
  | clearSelection
  /-- The selection shall be remembered for pasting; it needs no remembering as long as it stays. -/
  | copy
  /-- A copy of the selection is wanted at a point. -/
  | paste (position : Point α)
  /-- The last edit shall be taken back; there is no record of edits to take back. -/
  | undo
deriving BEq, DecidableEq, Repr

end GraphBoard
