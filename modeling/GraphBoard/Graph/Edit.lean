import GraphBoard.Graph.FreshKey

/-!
# GraphBoard.Graph.Edit

The edits of a graph. An edit that names something absent, or that would make the graph invalid,
is declined: it answers `none` and there is no new graph.

The projection lemmas say what each edit leaves in the lists of nodes and edges.
-/

namespace GraphBoard

/-- What the deletion of a node takes away. -/
structure Deleted (α : Type) where
  /-- The node. -/
  node : Node α
  /-- The edges that started or ended at it, in their order. -/
  edges : List Edge
deriving BEq, DecidableEq, Repr

namespace Graph

variable {α : Type}

/-! ## Nodes -/

/-- Adds an untitled node on top. -/
def insertNode (g : Graph α) (position : Point α) (kind : NodeKind) : Graph α × NodeKey :=
  let key := g.freshKey none
  ({ g with nodes := g.nodes ++ [⟨key, "", kind, none, position⟩], issued := g.freshNumber none },
    key)

/-- The title of start nodes. -/
def startTitle : String := "Node A"

/-- Adds a special node at the origin, below all others. -/
def insertStartNode [Scalar α] (g : Graph α) : Graph α × NodeKey :=
  let key := g.freshKey none
  ({ g with
      nodes := ⟨key, startTitle, .special, none, .origin⟩ :: g.nodes
      issued := g.freshNumber none },
    key)

/-- Moves a node. -/
def moveNode? (g : Graph α) (k : NodeKey) (position : Point α) : Option (Graph α) :=
  (g.nodeIndex? k).map fun i => { g with nodes := g.nodes.modify i ({ · with position }) }

/-- Deletes a node and the edges that start or end at it. -/
def deleteNode? (g : Graph α) (k : NodeKey) : Option (Graph α × Deleted α) :=
  (g.node? k).map fun n =>
    ({ g with
        nodes := g.nodes.eraseP (·.key == k)
        edges := g.edges.filter fun e => !e.touches k },
      ⟨n, g.edges.filter fun e => e.touches k⟩)

/-- Deletes the first node. -/
def deleteStartNode? (g : Graph α) : Option (Graph α × Deleted α) :=
  g.nodes.head?.bind fun n => g.deleteNode? n.key

/-! ## Edges -/

/-- Adds an edge on top; parallel edges are allowed. -/
def insertEdge? (g : Graph α) (source target : NodeKey) (kind : EdgeKind) : Option (Graph α) :=
  if g.joinable source target then some { g with edges := g.edges ++ [⟨source, target, kind⟩] }
  else none

/-- Leads the first edge with a key between other nodes; its place and kind stay. -/
def retargetEdge? (g : Graph α) (k : EdgeKey) (source target : NodeKey) : Option (Graph α) :=
  if g.joinable source target then
    (g.edgeIndex? k).map fun i => { g with edges := g.edges.modify i (·.between source target) }
  else none

/-- Deletes the first edge with a key. -/
def deleteEdge? (g : Graph α) (k : EdgeKey) : Option (Graph α × Edge) :=
  (g.edge? k).map fun e => ({ g with edges := g.edges.eraseP (·.key == k) }, e)

/-! ## What is left -/

@[simp] theorem nodes_insertNode (g : Graph α) (p : Point α) (kind : NodeKind) :
    (g.insertNode p kind).1.nodes = g.nodes ++ [⟨g.freshKey none, "", kind, none, p⟩] := rfl

@[simp] theorem edges_insertNode (g : Graph α) (p : Point α) (kind : NodeKind) :
    (g.insertNode p kind).1.edges = g.edges := rfl

@[simp] theorem nodes_insertStartNode [Scalar α] (g : Graph α) :
    g.insertStartNode.1.nodes =
      ⟨g.freshKey none, startTitle, .special, none, .origin⟩ :: g.nodes := rfl

@[simp] theorem edges_insertStartNode [Scalar α] (g : Graph α) :
    g.insertStartNode.1.edges = g.edges := rfl

/-- An edge is inserted behind the others, if its ends can be joined. -/
theorem insertEdge?_eq_some_iff {g g' : Graph α} {s t : NodeKey} {kind : EdgeKind} :
    g.insertEdge? s t kind = some g' ↔
      g.joinable s t = true ∧ g' = { g with edges := g.edges ++ [⟨s, t, kind⟩] } := by
  unfold insertEdge?
  split
  · rename_i h
    exact ⟨fun e => ⟨h, (Option.some.inj e).symm⟩, fun e => congrArg some e.2.symm⟩
  · rename_i h
    exact ⟨nofun, fun e => absurd e.1 h⟩

/-- A node is deleted with the edges that touch it, if there is one with the key. -/
theorem deleteNode?_eq_some_iff {g g' : Graph α} {k : NodeKey} {d : Deleted α} :
    g.deleteNode? k = some (g', d) ↔
      g.node? k = some d.node ∧ d.edges = g.edges.filter (fun e => e.touches k) ∧
      g' = { g with
        nodes := g.nodes.eraseP (·.key == k)
        edges := g.edges.filter fun e => !e.touches k } := by
  cases d
  simp only [deleteNode?, Option.map_eq_some_iff, Prod.mk.injEq, Deleted.mk.injEq]
  constructor
  · rintro ⟨n, hn, rfl, rfl, rfl⟩
    exact ⟨hn, rfl, rfl⟩
  · rintro ⟨hn, rfl, rfl⟩
    exact ⟨_, hn, rfl, rfl, rfl⟩

/-- The first edge with a key is deleted, if there is one. -/
theorem deleteEdge?_eq_some_iff {g g' : Graph α} {k : EdgeKey} {e : Edge} :
    g.deleteEdge? k = some (g', e) ↔
      g.edge? k = some e ∧ g' = { g with edges := g.edges.eraseP (·.key == k) } := by
  simp only [deleteEdge?, Option.map_eq_some_iff, Prod.mk.injEq]
  constructor
  · rintro ⟨f, hf, rfl, rfl⟩
    exact ⟨hf, rfl⟩
  · rintro ⟨hf, rfl⟩
    exact ⟨_, hf, rfl, rfl⟩

end Graph

end GraphBoard
