import GraphBoard.Graph.Basic
import GraphBoard.Roll

/-!
# GraphBoard.Sample.Chain

Boards of any size for trying things out: a chain of nodes that walks over a grid, row by row.
-/

namespace GraphBoard.Sample

/-- A cell of the grid. -/
structure Cell where
  /-- The column. -/
  column : Nat
  /-- The row. -/
  row : Nat
deriving DecidableEq, Repr

/-- How many cells a row has. -/
def rowLength : Nat := 20

/-- The cell of the `i`-th node, next to the cell of the one before: every `rowLength`-th node
starts a row. -/
def Cell.next (c : Cell) (i : Nat) : Cell :=
  if i % rowLength = 0 then ⟨0, c.row + 1⟩ else ⟨c.column + 1, c.row⟩

/-- The key of the `i`-th node. -/
def chainKey (i : Nat) : NodeKey := "a" ++ toString i

variable {α : Type} [Scalar α]

/-- The distance of neighbouring cells. -/
def cellSize : α := 200.0

/-- The `i`-th node, in a cell. Its kind is rolled. -/
def chainNode (i : Nat) (c : Cell) : Node α where
  key := chainKey i
  title := "Node " ++ toString i
  kind := NodeKind.all.getD (rollIndex i NodeKind.all.length) .empty
  underlay := none
  position := ⟨cellSize * Scalar.ofNat c.column, cellSize * Scalar.ofNat c.row⟩

/-- So many nodes from the `i`-th on, the one before it in a cell. -/
def chainNodes : (count i : Nat) → Cell → List (Node α)
  | 0, _, _ => []
  | count + 1, i, c => chainNode i (c.next i) :: chainNodes count (i + 1) (c.next i)

/-- The edge from the `i`-th node of a chain of `n` to the next. Its kind is rolled. -/
def chainEdge (n i : Nat) : Edge where
  source := chainKey i
  target := chainKey (i + 1)
  kind := EdgeKind.all.getD (rollIndex (i + n) EdgeKind.all.length) .empty

/-- The chain of `n` nodes, counted from one. -/
def chain (n : Nat) : Graph α :=
  .ofItems (chainNodes n 1 ⟨0, 0⟩) ((List.range' 1 (n - 1)).map (chainEdge n))

end GraphBoard.Sample
