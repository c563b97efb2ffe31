import GraphBoard.Graph.Edit
import GraphBoard.Selection

/-!
# GraphBoard.Graph.Duplicate

Copying a part of a graph. The copies of the chosen nodes keep their places to one another, with
the upper left corner of their bounding box at a given point; a chosen edge is copied along if
both its ends are.
-/

namespace GraphBoard

namespace Graph

variable {α : Type}

/-- The chosen nodes, in the order of the graph. -/
def chosenNodes (g : Graph α) (s : Selection) : List (Node α) :=
  g.nodes.filter fun n => s.hasNode n.key

/-- Adds a copy of each node of a list, moved by `shift`. Each copy takes a key that neither a node
nor an earlier copy has. Answers which copy each node got, too. -/
def copyNodes (shift : Point α → Point α) :
    List (Node α) → Graph α → Graph α × List (NodeKey × NodeKey)
  | [], g => (g, [])
  | n :: ns, g =>
    let key := g.freshKey (some n.key)
    let copy := { n with key, position := shift n.position }
    let (g', renamed) :=
      copyNodes shift ns
        { g with nodes := g.nodes ++ [copy], issued := g.freshNumber (some n.key) }
    (g', (n.key, key) :: renamed)

/-- The copy of the first edge with a key, if both its ends have copies. -/
def copyEdge? (g : Graph α) (renamed : List (NodeKey × NodeKey)) (k : EdgeKey) : Option Edge := do
  let e ← g.edge? k
  let source ← renamed.lookup e.source
  let target ← renamed.lookup e.target
  return e.between source target

/-- Moves a point as `corner` is moved onto `goal`. -/
def moveOnto [Scalar α] (goal corner p : Point α) : Point α :=
  ⟨goal.x + (p.x - corner.x), goal.y + (p.y - corner.y)⟩

/-- Copies the chosen nodes, and the chosen edges between them, to a point. Answers the selection
of the copies: the empty one, and the same graph, if no node of the graph is chosen. -/
def duplicate [Scalar α] (g : Graph α) (s : Selection) (goal : Point α) : Graph α × Selection :=
  match g.chosenNodes s with
  | [] => (g, .empty)
  | n :: ns =>
    let corner := n.position.corner (ns.map Node.position)
    let (g', renamed) := copyNodes (moveOnto goal corner) (n :: ns) g
    let copies := s.edges.toList.filterMap (g.copyEdge? renamed)
    ({ g' with edges := g'.edges ++ copies },
      .ofKeys (renamed.map Prod.snd) (copies.map Edge.key))

/-- Copying nodes leaves the edges alone. -/
@[simp] theorem edges_copyNodes (shift : Point α → Point α) (ns : List (Node α)) (g : Graph α) :
    (copyNodes shift ns g).1.edges = g.edges := by
  induction ns generalizing g with
  | nil => rfl
  | cons n ns ih => simp [copyNodes, ih]

end Graph

end GraphBoard
