import GraphBoard.Proofs.Graph.Copy

/-!
# GraphBoard.Proofs.Graph.Run

Runs of edits.  `Edit` has a constructor for each operation on a graph, with everything that the
operation is given; nothing is asked of the keys, the points or the selection in it.  A declined
edit leaves the graph as it is.
-/

namespace GraphBoard.Graph

variable {α : Type}

/-- An operation on a graph. -/
inductive Edit (α : Type) where
  | insertNode (position : Point α) (kind : NodeKind)
  | insertStartNode
  | deleteStartNode
  | moveNode (key : NodeKey) (position : Point α)
  | deleteNode (key : NodeKey)
  | insertEdge (source target : NodeKey) (kind : EdgeKind)
  | retargetEdge (edge : EdgeKey) (source target : NodeKey)
  | deleteEdge (edge : EdgeKey)
  | duplicate (selection : Selection) (goal : Point α)

/-- The graph after an edit. -/
def edit [Scalar α] (g : Graph α) : Edit α → Graph α
  | .insertNode p kind => (g.insertNode p kind).1
  | .insertStartNode => g.insertStartNode.1
  | .deleteStartNode => (g.deleteStartNode?.map Prod.fst).getD g
  | .moveNode k p => (g.moveNode? k p).getD g
  | .deleteNode k => ((g.deleteNode? k).map Prod.fst).getD g
  | .insertEdge s t kind => (g.insertEdge? s t kind).getD g
  | .retargetEdge k s t => (g.retargetEdge? k s t).getD g
  | .deleteEdge k => ((g.deleteEdge? k).map Prod.fst).getD g
  | .duplicate selection goal => (g.duplicate selection goal).1

/-- The graph after one edit after the other. -/
def editAll [Scalar α] (g : Graph α) (edits : List (Edit α)) : Graph α := edits.foldl edit g

/-- What holds of a graph and of the result of an edit holds after the edit, carried out or not. -/
theorem getD_preserves {P : Graph α → Prop} {g : Graph α} (hg : P g) {result : Option (Graph α)}
    (h : ∀ g', result = some g' → P g') : P (result.getD g) := by
  cases result with
  | none => exact hg
  | some g' => exact h g' rfl

/-- What an edit that answers something keeps is kept where the edit is declined as well. -/
theorem getD_map_fst_preserves {β : Type} {P : Graph α → Prop} {g : Graph α} (hg : P g)
    {result : Option (Graph α × β)} (h : ∀ g' b, result = some (g', b) → P g') :
    P ((result.map Prod.fst).getD g) := by
  cases result with
  | none => exact hg
  | some r => exact h r.1 r.2 rfl

/-- Every edit leaves a valid graph. -/
theorem Valid.edit [Scalar α] {g : Graph α} (hg : g.Valid) (e : Edit α) : (g.edit e).Valid := by
  cases e with
  | insertNode p kind => exact hg.insertNode p kind
  | insertStartNode => exact hg.insertStartNode
  | deleteStartNode => exact getD_map_fst_preserves hg fun _ _ h => hg.deleteStartNode? h
  | moveNode k p => exact getD_preserves hg fun _ h => hg.moveNode? h
  | deleteNode k => exact getD_map_fst_preserves hg fun _ _ h => hg.deleteNode? h
  | insertEdge s t kind => exact getD_preserves hg fun _ h => hg.insertEdge? h
  | retargetEdge k s t => exact getD_preserves hg fun _ h => hg.retargetEdge? h
  | deleteEdge k => exact getD_map_fst_preserves hg fun _ _ h => hg.deleteEdge? h
  | duplicate selection goal => exact hg.duplicate selection goal

section EditAll

variable [Scalar α]

@[simp] theorem editAll_nil (g : Graph α) : g.editAll [] = g := rfl

@[simp] theorem editAll_cons (g : Graph α) (e : Edit α) (edits : List (Edit α)) :
    g.editAll (e :: edits) = (g.edit e).editAll edits := rfl

/-- Edits are made one after the other. -/
theorem editAll_append (g : Graph α) (first second : List (Edit α)) :
    g.editAll (first ++ second) = (g.editAll first).editAll second :=
  List.foldl_append

/-- Edits of one sort, one for each of a list, are a fold over the list. -/
theorem editAll_map {κ : Type} (f : κ → Edit α) (g : Graph α) (ks : List κ) :
    g.editAll (ks.map f) = ks.foldl (fun g k => g.edit (f k)) g :=
  List.foldl_map

/-- What each of the edits keeps is kept by all of them. -/
theorem editAll_preserves {P : Graph α → Prop} {g : Graph α} {edits : List (Edit α)} (hg : P g)
    (h : ∀ g, P g → ∀ e ∈ edits, P (g.edit e)) : P (g.editAll edits) := by
  induction edits generalizing g with
  | nil => exact hg
  | cons e edits ih =>
      have hfirst : P (g.edit e) := h g hg e List.mem_cons_self
      exact ih hfirst fun g hg f hf => h g hg f (List.mem_cons_of_mem e hf)

end EditAll

/-- So does every list of edits. -/
theorem Valid.editAll [Scalar α] {g : Graph α} (hg : g.Valid) (edits : List (Edit α)) :
    (g.editAll edits).Valid :=
  editAll_preserves hg fun _ hg e _ => hg.edit e

end GraphBoard.Graph
