import GraphBoard.Graph.Basic

/-!
# GraphBoard.Layout.Tree

The levels of the vertical tree. One tree after the other is grown by a queue search: first from
the nodes that no edge enters, then, for what is left on cycles, from any node. A node is placed
once, one level below the node that found it.

A search holds the keys that wait for a place; a key leaves the waiting list when it enters the
queue, and the queue when it is placed, so the two get shorter together.
-/

namespace GraphBoard

variable {α : Type}

namespace Tree

/-- The nodes that the edges out of a node lead to, edge by edge. -/
def targets (edges : List Edge) (k : NodeKey) : List NodeKey :=
  (edges.filter (·.source == k)).map Edge.target

/-- Takes those of the `ks` that wait, each once and in order, off the waiting list. Answers them
and the keys still waiting. -/
def claim : (ks waiting : List NodeKey) → List NodeKey × List NodeKey
  | [], waiting => ([], waiting)
  | k :: ks, waiting =>
    if k ∈ waiting then
      let found := claim ks (waiting.erase k)
      (k :: found.1, found.2)
    else claim ks waiting

/-- No key is lost, and none is claimed that does not wait. -/
theorem length_claim (ks waiting : List NodeKey) :
    (claim ks waiting).1.length + (claim ks waiting).2.length = waiting.length := by
  induction ks generalizing waiting with
  | nil => simp [claim]
  | cons k ks ih =>
    unfold claim
    split
    · rename_i h
      have h1 := ih (waiting.erase k)
      have h2 := List.length_erase_of_mem h
      have h3 := List.length_pos_of_mem h
      simp only [List.length_cons]
      omega
    · exact ih waiting

/-- Searches from the nodes in a queue, each with its depth. Answers the nodes in the order in which
they leave the queue, and the keys still waiting. -/
def search (edges : List Edge) (waiting : List NodeKey) :
    List (NodeKey × Nat) → List (NodeKey × Nat) × List NodeKey
  | [] => ([], waiting)
  | (k, depth) :: queue =>
    let found := claim (targets edges k) waiting
    let later := search edges found.2 (queue ++ found.1.map (·, depth + 1))
    ((k, depth) :: later.1, later.2)
termination_by queue => waiting.length + queue.length
decreasing_by
  have := length_claim (targets edges k) waiting
  simp only [List.length_append, List.length_map, List.length_cons]
  omega

/-- Grows a tree from each start that still waits. -/
def grow (edges : List Edge) : (starts waiting : List NodeKey) → List (NodeKey × Nat)
  | [], _ => []
  | s :: starts, waiting =>
    if s ∈ waiting then
      let tree := search edges (waiting.erase s) [(s, 0)]
      tree.1 ++ grow edges starts tree.2
    else grow edges starts waiting

/-- Where trees start: at the nodes that no edge enters, and then at all nodes. -/
def starts (g : Graph α) : List NodeKey :=
  g.keys.filter (fun k => !g.edges.any (·.target == k)) ++ g.keys

/-- The nodes with their depths, in the order in which they are placed. -/
def placed (g : Graph α) : List (NodeKey × Nat) := grow g.edges (starts g) g.keys

/-- The number of levels that hold the placed nodes. -/
def height (nodes : List (NodeKey × Nat)) : Nat :=
  nodes.foldl (fun h n => max h (n.2 + 1)) 0

/-- The nodes of a level, in the order in which they were placed. -/
def level (nodes : List (NodeKey × Nat)) (depth : Nat) : List NodeKey :=
  (nodes.filter (·.2 == depth)).map Prod.fst

/-- The levels of the tree, the topmost first. -/
def levels (g : Graph α) : List (List NodeKey) :=
  (List.range (height (placed g))).map (level (placed g))

end Tree

end GraphBoard
