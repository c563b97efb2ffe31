import GraphBoard.Graph.Item

/-!
# GraphBoard.Graph.Basic

The graph on a board: its nodes and its edges, each in the order in which they are drawn, and the
number last used for a generated key. Items are found by a search from the front, so the first of
several parallel edges is the one a key names.

`Valid` is what every operation of this library keeps: no two nodes share a key, and every edge
joins two different nodes of the graph.
-/

namespace GraphBoard

/-- A directed graph whose nodes and edges are ordered. -/
structure Graph (α : Type) where
  /-- The nodes, the topmost last. -/
  nodes : List (Node α)
  /-- The edges, the topmost last. -/
  edges : List Edge
  /-- The number of the key generated last. -/
  issued : Nat
deriving BEq, DecidableEq, Repr

namespace Graph

variable {α : Type}

/-- The graph without nodes. -/
def empty : Graph α := ⟨[], [], 0⟩

/-- The graph of given nodes and edges, no key generated yet. -/
def ofItems (nodes : List (Node α)) (edges : List Edge) : Graph α := ⟨nodes, edges, 0⟩

/-! ## Finding items -/

/-- The keys of the nodes, in their order. -/
def keys (g : Graph α) : List NodeKey := g.nodes.map Node.key

/-- The node with a key. -/
def node? (g : Graph α) (k : NodeKey) : Option (Node α) := g.nodes.find? (·.key == k)

/-- The place of the node with a key. -/
def nodeIndex? (g : Graph α) (k : NodeKey) : Option Nat := g.nodes.findIdx? (·.key == k)

/-- Whether a node has the key. -/
def hasNode (g : Graph α) (k : NodeKey) : Bool := g.nodes.any (·.key == k)

/-- The first edge with a key. -/
def edge? (g : Graph α) (k : EdgeKey) : Option Edge := g.edges.find? (·.key == k)

/-- The place of the first edge with a key. -/
def edgeIndex? (g : Graph α) (k : EdgeKey) : Option Nat := g.edges.findIdx? (·.key == k)

/-- Whether some edge has the key. -/
def hasEdge (g : Graph α) (k : EdgeKey) : Bool := g.edges.any (·.key == k)

/-- Whether an edge may join the two: they differ and both are nodes. -/
def joinable (g : Graph α) (source target : NodeKey) : Bool :=
  source != target && g.hasNode source && g.hasNode target

/-! ## Membership -/

/-- A key is in a graph if a node has it. -/
theorem mem_keys {g : Graph α} {k : NodeKey} : k ∈ g.keys ↔ ∃ n ∈ g.nodes, n.key = k := by
  simp [keys]

@[simp] theorem hasNode_iff {g : Graph α} {k : NodeKey} : g.hasNode k = true ↔ k ∈ g.keys := by
  simp [hasNode, keys]

@[simp] theorem hasEdge_iff {g : Graph α} {k : EdgeKey} :
    g.hasEdge k = true ↔ ∃ e ∈ g.edges, e.key = k := by
  simp [hasEdge]

/-- Two nodes can be joined if both are there and they are different. -/
theorem joinable_iff {g : Graph α} {s t : NodeKey} :
    g.joinable s t = true ↔ s ≠ t ∧ s ∈ g.keys ∧ t ∈ g.keys := by
  simp [joinable, and_assoc]

/-- A node is found exactly under the keys of the graph. -/
theorem node?_isSome_iff {g : Graph α} {k : NodeKey} : (g.node? k).isSome ↔ k ∈ g.keys := by
  simp [node?, keys, List.find?_isSome]

/-! ## Validity -/

/-- No two nodes share a key, and every edge joins two different nodes of the graph. -/
structure Valid (g : Graph α) : Prop where
  /-- The keys of the nodes are pairwise different. -/
  keys_nodup : g.keys.Nodup
  /-- Every edge leaves a node of the graph. -/
  source_mem : ∀ e ∈ g.edges, e.source ∈ g.keys
  /-- Every edge enters a node of the graph. -/
  target_mem : ∀ e ∈ g.edges, e.target ∈ g.keys
  /-- No edge enters the node it leaves. -/
  no_loop : ∀ e ∈ g.edges, e.source ≠ e.target

/-- The empty graph is valid. -/
theorem valid_empty : (empty : Graph α).Valid := by
  constructor <;> simp [empty, keys]

end Graph

end GraphBoard
