import GraphBoard.Proofs.Graph.Edit
import GraphBoard.Proofs.Graph.Fresh

/-!
# GraphBoard.Proofs.Graph.Valid

Edits keep a graph valid.  All but the deletion of a node are cases of `Valid.extend`: no key goes,
no key comes twice, and an edge that was not there before joins two different nodes.
-/

namespace GraphBoard.Graph

variable {α : Type} {g g' : Graph α}

/-- A graph stays valid if its nodes stay, keys are not repeated, and edges are added only between
nodes that can be joined. -/
theorem Valid.extend (hg : g.Valid) (hk : g'.keys.Nodup) (hsub : g.keys ⊆ g'.keys)
    (he : ∀ e ∈ g'.edges, e ∈ g.edges ∨ g'.joinable e.source e.target = true) :
    g'.Valid := by
  have hends : ∀ e ∈ g'.edges, e.source ∈ g'.keys ∧ e.target ∈ g'.keys ∧ e.source ≠ e.target := by
    intro e h
    cases he e h with
    | inl hold =>
        have hs := hsub (hg.source_mem e hold)
        have ht := hsub (hg.target_mem e hold)
        exact ⟨hs, ht, hg.no_loop e hold⟩
    | inr hnew =>
        obtain ⟨hne, hs, ht⟩ := joinable_iff.mp hnew
        exact ⟨hs, ht, hne⟩
  exact ⟨hk, fun e h => (hends e h).1, fun e h => (hends e h).2.1, fun e h => (hends e h).2.2⟩

/-! ## Keys after an edit -/

/-- A node is inserted behind the others, under a fresh key. -/
theorem keys_insertNode (g : Graph α) (p : Point α) (kind : NodeKind) :
    (g.insertNode p kind).1.keys = g.keys ++ [g.freshKey none] := by
  simp [keys]

/-- The start node is inserted before the others, under a fresh key. -/
theorem keys_insertStartNode [Scalar α] (g : Graph α) :
    g.insertStartNode.1.keys = g.freshKey none :: g.keys := by
  simp [keys]

/-- Moving a node leaves the keys as they are. -/
theorem keys_moveNode? {k : NodeKey} {p : Point α} (h : g.moveNode? k p = some g') :
    g'.keys = g.keys := by
  obtain ⟨xs, n, ys, hm, rfl⟩ := moveNode?_eq_some_iff.mp h
  simp [keys, hm.split]

/-- Moving a node leaves the edges as they are. -/
theorem edges_of_moveNode? {k : NodeKey} {p : Point α} (h : g.moveNode? k p = some g') :
    g'.edges = g.edges := by
  obtain ⟨xs, n, ys, -, rfl⟩ := moveNode?_eq_some_iff.mp h
  rfl

/-- Inserting an edge leaves the nodes as they are. -/
theorem nodes_of_insertEdge? {s t : NodeKey} {kind : EdgeKind}
    (h : g.insertEdge? s t kind = some g') : g'.nodes = g.nodes := by
  rw [(insertEdge?_eq_some_iff.mp h).2]

/-- Giving an edge other ends leaves the nodes as they are. -/
theorem nodes_of_retargetEdge? {k : EdgeKey} {s t : NodeKey}
    (h : g.retargetEdge? k s t = some g') : g'.nodes = g.nodes := by
  obtain ⟨-, xs, e, ys, -, rfl⟩ := retargetEdge?_eq_some_iff.mp h
  rfl

/-- Deleting an edge leaves the nodes as they are. -/
theorem nodes_of_deleteEdge? {k : EdgeKey} {e : Edge} (h : g.deleteEdge? k = some (g', e)) :
    g'.nodes = g.nodes := by
  rw [(deleteEdge?_eq_some_iff.mp h).2]

/-- The keys depend on the nodes alone. -/
theorem keys_eq_of_nodes (h : g'.nodes = g.nodes) : g'.keys = g.keys := by
  rw [keys, keys, h]

/-- Which nodes can be joined depends on the nodes alone. -/
theorem joinable_eq_of_nodes (h : g'.nodes = g.nodes) (s t : NodeKey) :
    g'.joinable s t = g.joinable s t := by
  simp only [joinable, hasNode, h]

/-- On a valid board a key belongs to one node. -/
theorem node_unique (hg : g.Valid) {m n : Node α} (hm : m ∈ g.nodes) (hn : n ∈ g.nodes)
    (h : m.key = n.key) : m = n :=
  List.inj_on_of_nodup_map hg.keys_nodup hm hn h

/-- An edge does not touch a node that neither of its ends is. -/
theorem touches_eq_false_iff {e : Edge} {k : NodeKey} :
    e.touches k = false ↔ e.source ≠ k ∧ e.target ≠ k := by
  rw [← Bool.not_eq_true, Edge.touches_iff, not_or]

/-! ## Nodes -/

/-- Inserting a node leaves a valid graph. -/
theorem Valid.insertNode (hg : g.Valid) (p : Point α) (kind : NodeKind) :
    (g.insertNode p kind).1.Valid := by
  have hfresh := g.freshKey_not_mem_keys none
  have hnodup : (g.keys ++ [g.freshKey none]).Nodup := by
    rw [List.nodup_append]
    refine ⟨hg.keys_nodup, List.nodup_singleton _, fun k hk l hl he => ?_⟩
    rw [he, List.mem_singleton.mp hl] at hk
    contradiction
  refine hg.extend ?_ ?_ fun e he => Or.inl he
  · rw [keys_insertNode]
    exact hnodup
  · rw [keys_insertNode]
    exact List.subset_append_left _ _

/-- So does inserting the start node. -/
theorem Valid.insertStartNode [Scalar α] (hg : g.Valid) : g.insertStartNode.1.Valid := by
  refine hg.extend ?_ ?_ fun e he => Or.inl he
  · rw [keys_insertStartNode]
    exact List.nodup_cons.mpr ⟨g.freshKey_not_mem_keys none, hg.keys_nodup⟩
  · rw [keys_insertStartNode]
    exact List.subset_cons_self _ _

/-- So does moving a node. -/
theorem Valid.moveNode? (hg : g.Valid) {k : NodeKey} {p : Point α}
    (h : g.moveNode? k p = some g') : g'.Valid := by
  have hk := keys_moveNode? h
  obtain ⟨xs, n, ys, -, rfl⟩ := moveNode?_eq_some_iff.mp h
  exact hg.extend (hk ▸ hg.keys_nodup) (hk ▸ List.Subset.refl _) fun e he => Or.inl he

/-- A key stays exactly if it is not the key of the deleted node. -/
theorem mem_keys_deleteNode? (hg : g.Valid) {k k' : NodeKey} {d : Deleted α}
    (h : g.deleteNode? k = some (g', d)) : k' ∈ g'.keys ↔ k' ∈ g.keys ∧ k' ≠ k := by
  obtain ⟨xs, ys, hm, -, rfl⟩ := deleteNode?_eq_some_iff_firstMatch.mp h
  have hk : d.node.key = k := by simpa using hm.passes
  have hnodup := hg.keys_nodup
  simp only [keys, hm.split, List.map_append, List.map_cons, hk] at hnodup ⊢
  rw [List.nodup_append, List.nodup_cons] at hnodup
  obtain ⟨-, ⟨hys, -⟩, hxs⟩ := hnodup
  have hxk : k ∉ xs.map Node.key := fun hx => hxs k hx k List.mem_cons_self rfl
  simp only [List.mem_append, List.mem_cons]
  constructor
  · intro h
    cases h with
    | inl hx => exact ⟨Or.inl hx, fun he => hxk (he ▸ hx)⟩
    | inr hy => exact ⟨Or.inr (Or.inr hy), fun he => hys (he ▸ hy)⟩
  · intro h
    obtain ⟨hx | he | hy, hne⟩ := h
    · exact Or.inl hx
    · contradiction
    · exact Or.inr hy

/-- So does deleting a node, since its edges go with it. -/
theorem Valid.deleteNode? (hg : g.Valid) {k : NodeKey} {d : Deleted α}
    (h : g.deleteNode? k = some (g', d)) : g'.Valid := by
  have hmem {k' : NodeKey} : k' ∈ g'.keys ↔ k' ∈ g.keys ∧ k' ≠ k := mem_keys_deleteNode? hg h
  obtain ⟨xs, ys, hm, -, rfl⟩ := deleteNode?_eq_some_iff_firstMatch.mp h
  -- an edge that stays touches neither end of what goes
  have hold {e : Edge} (he : e ∈ g.edges.filter fun e => !e.touches k) :
      e ∈ g.edges ∧ e.source ≠ k ∧ e.target ≠ k := by
    simpa [touches_eq_false_iff] using he
  refine ⟨?_, fun e he => ?_, fun e he => ?_, fun e he => hg.no_loop e (hold he).1⟩
  · refine List.Nodup.sublist ?_ hg.keys_nodup
    rw [keys, keys, hm.split]
    exact List.Sublist.map _ (List.Sublist.append_left (List.sublist_cons_self _ _) _)
  · exact hmem.mpr ⟨hg.source_mem e (hold he).1, (hold he).2.1⟩
  · exact hmem.mpr ⟨hg.target_mem e (hold he).1, (hold he).2.2⟩

/-- So does deleting the start node. -/
theorem Valid.deleteStartNode? (hg : g.Valid) {d : Deleted α}
    (h : g.deleteStartNode? = some (g', d)) : g'.Valid := by
  obtain ⟨n, -, hd⟩ := deleteStartNode?_eq_some h
  exact hg.deleteNode? hd

/-! ## Edges -/

/-- Where the nodes stay, a graph stays valid if edges are added only between nodes that can be
joined. -/
theorem Valid.of_nodes (hg : g.Valid) (hn : g'.nodes = g.nodes)
    (he : ∀ e ∈ g'.edges, e ∈ g.edges ∨ g.joinable e.source e.target = true) : g'.Valid := by
  have hk := keys_eq_of_nodes hn
  refine hg.extend (hk ▸ hg.keys_nodup) (hk ▸ List.Subset.refl _) fun e h => ?_
  rw [joinable_eq_of_nodes hn]
  exact he e h

/-- Inserting an edge leaves a valid graph. -/
theorem Valid.insertEdge? (hg : g.Valid) {s t : NodeKey} {kind : EdgeKind}
    (h : g.insertEdge? s t kind = some g') : g'.Valid := by
  refine hg.of_nodes (nodes_of_insertEdge? h) fun e he => ?_
  obtain ⟨hj, rfl⟩ := insertEdge?_eq_some_iff.mp h
  cases List.mem_append.mp he with
  | inl he => exact Or.inl he
  | inr he =>
      rw [List.mem_singleton.mp he]
      exact Or.inr hj

/-- So does giving an edge other ends. -/
theorem Valid.retargetEdge? (hg : g.Valid) {k : EdgeKey} {s t : NodeKey}
    (h : g.retargetEdge? k s t = some g') : g'.Valid := by
  refine hg.of_nodes (nodes_of_retargetEdge? h) fun e he => ?_
  obtain ⟨hj, xs, f, ys, hm, rfl⟩ := retargetEdge?_eq_some_iff.mp h
  cases hm.mem_of_mem_replaced he with
  | inl he => exact Or.inl he
  | inr he =>
      rw [he]
      exact Or.inr hj

/-- So does deleting an edge. -/
theorem Valid.deleteEdge? (hg : g.Valid) {k : EdgeKey} {f : Edge}
    (h : g.deleteEdge? k = some (g', f)) : g'.Valid := by
  refine hg.of_nodes (nodes_of_deleteEdge? h) fun e he => Or.inl ?_
  rw [(deleteEdge?_eq_some_iff.mp h).2] at he
  exact List.mem_of_mem_eraseP he

/-! ## A board for trying out -/

/-- A board on which the keys look as if they had been generated, and two edges share a key. -/
def lookalike : Graph Float :=
  .ofItems
    [⟨"a", "A", .special, none, ⟨3.0, 1.0⟩⟩, ⟨"a_1", "B", .poly, none, ⟨2.0, 5.0⟩⟩,
      ⟨"n1", "", .empty, none, ⟨0.0, 0.0⟩⟩]
    [⟨"a", "a_1", .special⟩, ⟨"a", "a_1", .empty⟩, ⟨"a_1", "n1", .empty⟩]

/-- The two edges that look alike are on a valid board. -/
theorem valid_lookalike : lookalike.Valid := by
  constructor <;> simp [lookalike, ofItems, keys]

end GraphBoard.Graph
