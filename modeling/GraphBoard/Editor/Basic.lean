import GraphBoard.Editor.Event
import GraphBoard.Graph.Duplicate
import GraphBoard.Roll

/-!
# GraphBoard.Editor.Basic

The editor: a graph and what is chosen in it. `apply` carries out an event and answers whether it
changed anything; `perform` adds to the events the few actions that come from outside the board.
-/

namespace GraphBoard

/-- A graph being edited. -/
structure Editor (α : Type) where
  /-- The graph. -/
  graph : Graph α
  /-- What is chosen in it. -/
  selection : Selection
  /-- Whether several items can be chosen by additive picks. -/
  multiselect : Bool
  /-- How many nodes have been created by `createNode`. -/
  created : Nat
deriving BEq

namespace Editor

variable {α : Type}

/-- Starts editing a graph with nothing chosen. -/
def start (graph : Graph α) (multiselect : Bool) : Editor α := ⟨graph, .empty, multiselect, 0⟩

/-! ## Parts of an event -/

/-- A quarter of the created nodes are special: those whose roll is in the lowest quarter. -/
def createdKind (created : Nat) : NodeKind :=
  if 4 * roll created < rollRange then .special else .empty

/-- Continues with another graph and forgets the chosen keys that name nothing in it. -/
def retaining (s : Editor α) (g : Graph α) : Editor α :=
  { s with graph := g, selection := s.selection.retain g }

/-- Deletes a node if it is there. -/
def dropNode (g : Graph α) (k : NodeKey) : Graph α × Bool :=
  match g.deleteNode? k with
  | some (g', _) => (g', true)
  | none => (g, false)

/-- Deletes the first edge with a key if there is one. -/
def dropEdge (g : Graph α) (k : EdgeKey) : Graph α × Bool :=
  match g.deleteEdge? k with
  | some (g', _) => (g', true)
  | none => (g, false)

/-- Deletes one item after the other; tells whether any was there. -/
def dropAll {κ : Type} (drop : Graph α → κ → Graph α × Bool) (g : Graph α) (ks : List κ) :
    Graph α × Bool :=
  ks.foldl (fun r k => let (g', dropped) := drop r.1 k; (g', r.2 || dropped)) (g, false)

/-- Deletes what is chosen, nodes first. A chosen edge key takes the first edge that it names, so
one of two parallel edges stays. -/
def deleteSelected (s : Editor α) : Editor α × Bool :=
  if s.selection.isEmpty then (s, false)
  else
    let (g, nodesDropped) := dropAll dropNode s.graph s.selection.nodes.toList
    let (g', edgesDropped) := dropAll dropEdge g s.selection.edges.toList
    ({ s with graph := g', selection := .empty }, nodesDropped || edgesDropped)

/-- Picks a node: toggles it in an additive pick, where that is allowed, else chooses it alone. -/
def pickNode (s : Editor α) (k : NodeKey) (additive : Bool) : Selection :=
  if additive && s.multiselect then s.selection.toggleNode k else .ofNode k

/-- Picks an edge: toggles it in an additive pick, where that is allowed, else chooses it alone. -/
def pickEdge (s : Editor α) (k : EdgeKey) (additive : Bool) : Selection :=
  if additive && s.multiselect then s.selection.toggleEdge k else .ofEdge k

/-! ## Events -/

/-- Carries out an event, and tells whether it was carried out. -/
def apply [Scalar α] (s : Editor α) : Event α → Editor α × Bool
  | .createNode p =>
    ({ s with
        graph := (s.graph.insertNode p (createdKind s.created)).1
        created := s.created + 1 },
      true)
  | .updateNode k p =>
    match s.graph.moveNode? k p with
    | some g => ({ s with graph := g }, true)
    | none => (s, false)
  | .deleteNode k =>
    match s.graph.deleteNode? k with
    | some (g, _) => (s.retaining g, true)
    | none => (s, false)
  | .deleteSelected => s.deleteSelected
  | .createEdge source target =>
    match s.graph.node? source with
    | none => (s, false)
    | some n =>
      match s.graph.insertEdge? source target (.ofSource n.kind) with
      | some g => ({ s with graph := g, selection := .ofEdge ⟨source, target⟩ }, true)
      | none => (s, false)
  | .swapEdge edge source target =>
    match s.graph.retargetEdge? edge source target with
    | some g => ({ s with graph := g, selection := .ofEdge ⟨source, target⟩ }, true)
    | none => (s, false)
  | .deleteEdge edge =>
    match s.graph.deleteEdge? edge with
    | some (g, _) => ({ s with graph := g, selection := .empty }, true)
    | none => (s, false)
  | .selectNode k additive =>
    if s.graph.hasNode k then ({ s with selection := s.pickNode k additive }, true)
    else (s, false)
  | .selectEdge k additive =>
    if s.graph.hasEdge k then ({ s with selection := s.pickEdge k additive }, true)
    else (s, false)
  | .clearSelection => ({ s with selection := .empty }, !s.selection.isEmpty)
  | .copy => (s, false)
  | .paste p =>
    let (g, copies) := s.graph.duplicate s.selection p
    if copies.isEmpty then ({ s with graph := g }, false)
    else ({ s with graph := g, selection := copies }, true)
  | .undo => (s, false)

/-! ## Actions from outside the board -/

/-- Replaces the graph; nothing stays chosen. -/
def replaceGraph (s : Editor α) (g : Graph α) : Editor α :=
  { s with graph := g, selection := .empty }

/-- Adds the start node; answers its key. -/
def addStartNode [Scalar α] (s : Editor α) : Editor α × NodeKey :=
  let (g, key) := s.graph.insertStartNode
  ({ s with graph := g }, key)

/-- Deletes the first node, and tells whether there was one. -/
def deleteStartNode (s : Editor α) : Editor α × Bool :=
  match s.graph.deleteStartNode? with
  | some (g, _) => (s.retaining g, true)
  | none => (s, false)

/-- An event, or an action from outside the board. -/
inductive Action (α : Type) where
  /-- An event of the board. -/
  | event (event : Event α)
  /-- The graph is replaced. -/
  | replaceGraph (graph : Graph α)
  /-- A start node is added. -/
  | addStartNode
  /-- The first node is deleted. -/
  | deleteStartNode

/-- What an action answers. -/
inductive Reply where
  /-- Nothing. -/
  | done
  /-- Whether something changed. -/
  | changed (changed : Bool)
  /-- The key of a new node. -/
  | created (key : NodeKey)
deriving DecidableEq, Repr

/-- Carries out an action. -/
def perform [Scalar α] (s : Editor α) : Action α → Editor α × Reply
  | .event e => let (s', changed) := s.apply e; (s', .changed changed)
  | .replaceGraph g => (s.replaceGraph g, .done)
  | .addStartNode => let (s', key) := s.addStartNode; (s', .created key)
  | .deleteStartNode => let (s', changed) := s.deleteStartNode; (s', .changed changed)

/-- The editor after a run of actions. -/
def run [Scalar α] (s : Editor α) (actions : List (Action α)) : Editor α :=
  actions.foldl (fun s a => (s.perform a).1) s

end Editor

end GraphBoard
