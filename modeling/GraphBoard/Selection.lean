import GraphBoard.OrderedSet
import GraphBoard.Graph.Basic

/-!
# GraphBoard.Selection

What the user has chosen: a set of node keys and a set of edge keys. A selection names items and
does not hold them, so it can outlive them; `retain` forgets the keys that name nothing.
-/

namespace GraphBoard

/-- The chosen nodes and edges. -/
structure Selection where
  /-- The keys of the chosen nodes. -/
  nodes : OrderedSet NodeKey
  /-- The keys of the chosen edges. -/
  edges : OrderedSet EdgeKey
deriving BEq

namespace Selection

/-! ## Making selections -/

/-- Nothing chosen. -/
def empty : Selection := ⟨.empty, .empty⟩

/-- One node chosen. -/
def ofNode (k : NodeKey) : Selection := ⟨.singleton k, .empty⟩

/-- One edge chosen. -/
def ofEdge (k : EdgeKey) : Selection := ⟨.empty, .singleton k⟩

/-- The nodes and edges of two lists of keys chosen. -/
def ofKeys (nodes : List NodeKey) (edges : List EdgeKey) : Selection :=
  ⟨.ofList nodes, .ofList edges⟩

/-- Adds or removes a node. -/
def toggleNode (s : Selection) (k : NodeKey) : Selection := { s with nodes := s.nodes.toggle k }

/-- Adds or removes an edge. -/
def toggleEdge (s : Selection) (k : EdgeKey) : Selection := { s with edges := s.edges.toggle k }

/-- Forgets the keys that name nothing in a graph. -/
def retain {α : Type} (s : Selection) (g : Graph α) : Selection :=
  ⟨s.nodes.filter g.hasNode, s.edges.filter g.hasEdge⟩

/-! ## Asking -/

/-- Whether nothing is chosen. -/
def isEmpty (s : Selection) : Bool := s.nodes.isEmpty && s.edges.isEmpty

/-- Whether a node is chosen. -/
def hasNode (s : Selection) (k : NodeKey) : Bool := decide (k ∈ s.nodes)

/-- Whether an edge is chosen. -/
def hasEdge (s : Selection) (k : EdgeKey) : Bool := decide (k ∈ s.edges)

/-- The chosen edge, if one edge is all that is chosen. -/
def singleEdge? (s : Selection) : Option EdgeKey :=
  match s.nodes.toList, s.edges.toList with
  | [], [k] => some k
  | _, _ => none

@[simp] theorem hasNode_iff {s : Selection} {k : NodeKey} : s.hasNode k = true ↔ k ∈ s.nodes := by
  simp [hasNode]

@[simp] theorem hasEdge_iff {s : Selection} {k : EdgeKey} : s.hasEdge k = true ↔ k ∈ s.edges := by
  simp [hasEdge]

/-- One edge is all that is chosen exactly in the selection of that edge. -/
theorem singleEdge?_eq_some_iff {s : Selection} {k : EdgeKey} :
    s.singleEdge? = some k ↔ s = ofEdge k := by
  obtain ⟨⟨ns, hn⟩, ⟨es, he⟩⟩ := s
  rcases ns with _ | ⟨n, ns⟩ <;> rcases es with _ | ⟨e, _ | ⟨f, es⟩⟩ <;>
    simp [singleEdge?, ofEdge, OrderedSet.empty, OrderedSet.singleton]

end Selection

end GraphBoard
