import GraphBoard.Proofs.Graph.Run
import GraphBoard.Proofs.Editor.Sound

/-!
# GraphBoard.Proofs.Editor.Edits

An editor changes its graph by edits and in no other way.

* `graph_apply` — the graph after an event is the graph after the edits that the event comes to;
* `valid_apply`, `valid_perform` — so the graph stays valid whatever is chosen, although the
  selection may name what is not there.
-/

namespace GraphBoard

variable {α : Type}

namespace Editor

/-! ## Deleting what is chosen -/

/-- What becomes of the graph does not depend on what is answered. -/
theorem foldl_drop_fst {κ : Type} (drop : Graph α → κ → Graph α × Bool) (ks : List κ)
    (r : Graph α × Bool) :
    (ks.foldl (fun r k => let (g', dropped) := drop r.1 k; (g', r.2 || dropped)) r).1 =
      ks.foldl (fun g k => (drop g k).1) r.1 := by
  induction ks generalizing r with
  | nil => rfl
  | cons k ks ih => exact ih _

/-- Several items are deleted one after the other. -/
theorem dropAll_fst {κ : Type} (drop : Graph α → κ → Graph α × Bool) (g : Graph α)
    (ks : List κ) : (dropAll drop g ks).1 = ks.foldl (fun g k => (drop g k).1) g :=
  foldl_drop_fst drop ks (g, false)

/-- The edits that delete what is chosen. -/
def deletions (s : Selection) : List (Graph.Edit α) :=
  s.nodes.toList.map .deleteNode ++ s.edges.toList.map .deleteEdge

/-- There is nothing to delete if nothing is chosen. -/
theorem deletions_of_isEmpty {s : Selection} (h : s.isEmpty = true) :
    deletions (α := α) s = [] := by
  have hparts : s.nodes.toList = [] ∧ s.edges.toList = [] := by
    simpa [Selection.isEmpty, OrderedSet.isEmpty] using h
  simp [deletions, hparts]

variable [Scalar α]

/-- To delete a node if it is there is an edit of the graph. -/
theorem dropNode_fst (g : Graph α) (k : NodeKey) : (dropNode g k).1 = g.edit (.deleteNode k) := by
  rw [dropNode, Graph.edit]
  cases g.deleteNode? k <;> rfl

theorem dropEdge_fst (g : Graph α) (k : EdgeKey) : (dropEdge g k).1 = g.edit (.deleteEdge k) := by
  rw [dropEdge, Graph.edit]
  cases g.deleteEdge? k <;> rfl

/-- To delete what is chosen is a run of edits of the graph. -/
theorem graph_deleteSelected (s : Editor α) :
    s.deleteSelected.1.graph = s.graph.editAll (deletions s.selection) := by
  rw [deleteSelected]
  by_cases h : s.selection.isEmpty = true
  · rw [if_pos h, deletions_of_isEmpty h]
    rfl
  · rw [if_neg h, deletions, Graph.editAll_append, Graph.editAll_map, Graph.editAll_map]
    simp only [dropAll_fst, dropNode_fst, dropEdge_fst]

/-! ## Events -/

/-- The edits that an event comes to. -/
def edits (s : Editor α) : Event α → List (Graph.Edit α)
  | .createNode p => [.insertNode p (createdKind s.created)]
  | .updateNode k p => [.moveNode k p]
  | .deleteNode k => [.deleteNode k]
  | .deleteSelected => deletions s.selection
  | .createEdge source target =>
    match s.graph.node? source with
    | some n => [.insertEdge source target (.ofSource n.kind)]
    | none => []
  | .swapEdge edge source target => [.retargetEdge edge source target]
  | .deleteEdge edge => [.deleteEdge edge]
  | .paste p => [.duplicate s.selection p]
  | _ => []

/-- The graph after an event is the graph after the edits that the event comes to. -/
theorem graph_apply (s : Editor α) (e : Event α) :
    (s.apply e).1.graph = s.graph.editAll (s.edits e) := by
  cases e with
  | createNode p => rfl
  | updateNode k p =>
      simp only [apply, edits, Graph.editAll_cons, Graph.editAll_nil, Graph.edit]
      cases s.graph.moveNode? k p <;> rfl
  | deleteNode k =>
      simp only [apply, edits, Graph.editAll_cons, Graph.editAll_nil, Graph.edit]
      cases s.graph.deleteNode? k <;> rfl
  | deleteSelected => exact graph_deleteSelected s
  | createEdge source target =>
      simp only [apply, edits]
      cases s.graph.node? source with
      | none => rfl
      | some n =>
          simp only [Graph.editAll_cons, Graph.editAll_nil, Graph.edit]
          cases s.graph.insertEdge? source target (.ofSource n.kind) <;> rfl
  | swapEdge edge source target =>
      simp only [apply, edits, Graph.editAll_cons, Graph.editAll_nil, Graph.edit]
      cases s.graph.retargetEdge? edge source target <;> rfl
  | deleteEdge edge =>
      simp only [apply, edits, Graph.editAll_cons, Graph.editAll_nil, Graph.edit]
      cases s.graph.deleteEdge? edge <;> rfl
  | selectNode k additive =>
      rw [apply]
      split <;> rfl
  | selectEdge k additive =>
      rw [apply]
      split <;> rfl
  | clearSelection => rfl
  | copy => rfl
  | paste p =>
      simp only [apply, edits, Graph.editAll_cons, Graph.editAll_nil, Graph.edit]
      split <;> rfl
  | undo => rfl

/-! ## Validity -/

/-- An event keeps the graph valid. -/
theorem valid_apply {s : Editor α} (hs : s.graph.Valid) (e : Event α) :
    (s.apply e).1.graph.Valid := by
  rw [graph_apply]
  exact hs.editAll _

/-- To delete the start node is an edit of the graph. -/
theorem graph_deleteStartNode (s : Editor α) :
    s.deleteStartNode.1.graph = s.graph.edit .deleteStartNode := by
  rw [deleteStartNode, Graph.edit]
  cases s.graph.deleteStartNode? <;> rfl

/-- An action keeps the graph valid. -/
theorem valid_perform {s : Editor α} (hs : s.graph.Valid) {a : Action α} (ha : a.Valid) :
    (s.perform a).1.graph.Valid := by
  cases a with
  | event e => exact valid_apply hs e
  | replaceGraph g => exact ha
  | addStartNode => exact hs.insertStartNode
  | deleteStartNode =>
      show s.deleteStartNode.1.graph.Valid
      rw [graph_deleteStartNode]
      exact hs.edit .deleteStartNode

end Editor

end GraphBoard
