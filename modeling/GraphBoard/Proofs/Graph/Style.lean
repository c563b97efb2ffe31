import GraphBoard.Proofs.Graph.Run

/-!
# GraphBoard.Proofs.Graph.Style

A graph is styled if every edge has the style that a new edge from the same node would have.

* `Edit.Styles` — what an edit has to do with care: a new edge takes the style of the node it
  leaves, and an edge that is led elsewhere still leaves the node that it left;
* `Styled.edit` — then a valid styled graph stays styled. A copied edge has the style of the edge
  that it copies, and its node has the kind of the node that it copies.
-/

namespace GraphBoard.Graph

variable {α : Type}

/-- Every edge has the style that is decided by the node it leaves. -/
def Styled (g : Graph α) : Prop :=
  ∀ e ∈ g.edges, ∃ n ∈ g.nodes, n.key = e.source ∧ e.kind = .ofSource n.kind

/-- An edit leaves every edge with the style of the node it leaves, as far as it is up to the edit:
nothing is asked of an edit that neither makes an edge nor leads one elsewhere. -/
def Edit.Styles (g : Graph α) : Edit α → Prop
  | .insertEdge source _ kind => ∃ n ∈ g.nodes, n.key = source ∧ kind = .ofSource n.kind
  | .retargetEdge edge source _ => source = edge.source
  | _ => True

section Edits

variable {g g' : Graph α}

/-- A graph stays styled if every node that an old edge leaves is there in the same kind, and every
new edge has the style of the node that it leaves. -/
theorem Styled.extend (h : g.Styled)
    (hn : ∀ n ∈ g.nodes, (∃ e ∈ g'.edges, e.source = n.key) →
      ∃ m ∈ g'.nodes, m.key = n.key ∧ m.kind = n.kind)
    (he : ∀ e ∈ g'.edges, e ∈ g.edges ∨
      ∃ n ∈ g'.nodes, n.key = e.source ∧ e.kind = .ofSource n.kind) : g'.Styled := by
  intro e hmem
  cases he e hmem with
  | inl hold =>
      obtain ⟨n, hnmem, hkey, hkind⟩ := h e hold
      obtain ⟨m, hm, hmkey, hmkind⟩ := hn n hnmem ⟨e, hmem, hkey.symm⟩
      exact ⟨m, hm, hmkey.trans hkey, hmkind ▸ hkind⟩
  | inr hnew => exact hnew

/-- Edges that stay keep their style as long as the nodes stay. -/
theorem Styled.of_subset (h : g.Styled) (hn : g.nodes ⊆ g'.nodes) (he : g'.edges ⊆ g.edges) :
    g'.Styled :=
  h.extend (fun n hmem _ => ⟨n, hn hmem, rfl, rfl⟩) fun _ hmem => Or.inl (he hmem)

/-- Moving a node changes no kind, so every edge keeps its style. -/
theorem Styled.moveNode? (h : g.Styled) {k : NodeKey} {p : Point α}
    (hmove : g.moveNode? k p = some g') : g'.Styled := by
  obtain ⟨xs, n, ys, hm, rfl⟩ := moveNode?_eq_some_iff.mp hmove
  refine h.extend (fun m hmem _ => ?_) fun e he => Or.inl he
  cases hm.mem_replaced_of_mem { n with position := p } hmem with
  | inl hstays => exact ⟨m, hstays, rfl, rfl⟩
  | inr hmoved =>
      rw [hmoved]
      exact ⟨_, List.mem_append_right _ List.mem_cons_self, rfl, rfl⟩

/-- A node takes its edges with it, and all others keep the nodes that they leave. -/
theorem Styled.deleteNode? (h : g.Styled) {k : NodeKey} {d : Deleted α}
    (hdelete : g.deleteNode? k = some (g', d)) : g'.Styled := by
  obtain ⟨-, -, rfl⟩ := deleteNode?_eq_some_iff.mp hdelete
  refine h.extend (fun n hmem hleft => ?_) fun e he => Or.inl (List.mem_of_mem_filter he)
  -- an edge that stays leaves a node that stays
  obtain ⟨e, he, hsource⟩ := hleft
  have hstays : e.source ≠ k := by
    have htouches : e.touches k = false := by simpa using (List.mem_filter.mp he).2
    exact (touches_eq_false_iff.mp htouches).1
  have hother : ¬ (n.key == k) = true := by simpa [← hsource] using hstays
  have hkept : n ∈ g.nodes.eraseP (·.key == k) :=
    (List.mem_eraseP_of_neg (p := (·.key == k)) hother).mpr hmem
  exact ⟨n, hkept, rfl, rfl⟩

/-- An edge that is inserted in the style of its source is in style. -/
theorem Styled.insertEdge? (h : g.Styled) {s t : NodeKey} {kind : EdgeKind}
    (hkind : ∃ n ∈ g.nodes, n.key = s ∧ kind = .ofSource n.kind)
    (hinsert : g.insertEdge? s t kind = some g') : g'.Styled := by
  obtain ⟨-, rfl⟩ := insertEdge?_eq_some_iff.mp hinsert
  refine h.extend (fun n hmem _ => ⟨n, hmem, rfl, rfl⟩) fun e he => ?_
  cases List.mem_append.mp he with
  | inl hold => exact Or.inl hold
  | inr hnew =>
      rw [List.mem_singleton.mp hnew]
      exact Or.inr hkind

/-- An edge that keeps its source keeps its style. -/
theorem Styled.retargetEdge? (h : g.Styled) {k : EdgeKey} {t : NodeKey}
    (hretarget : g.retargetEdge? k k.source t = some g') : g'.Styled := by
  obtain ⟨-, xs, f, ys, hm, rfl⟩ := retargetEdge?_eq_some_iff.mp hretarget
  refine h.extend (fun n hmem _ => ⟨n, hmem, rfl, rfl⟩) fun e he => ?_
  cases hm.mem_of_mem_replaced he with
  | inl hold => exact Or.inl hold
  | inr hled =>
      have hkey : f.key = k := by simpa using hm.passes
      have hsource : f.source = k.source := congrArg EdgeKey.source hkey
      obtain ⟨n, hn, hnkey, hkind⟩ := h f hm.mem
      rw [hled]
      exact Or.inr ⟨n, hn, hnkey.trans hsource, hkind⟩

/-- Deleting an edge leaves the styles of the others as they are. -/
theorem Styled.deleteEdge? (h : g.Styled) {k : EdgeKey} {f : Edge}
    (hdelete : g.deleteEdge? k = some (g', f)) : g'.Styled := by
  rw [(deleteEdge?_eq_some_iff.mp hdelete).2]
  exact h.of_subset (List.Subset.refl _) List.eraseP_subset

/-! ## Copies -/

section Duplicated

variable [Scalar α] {s s' : Selection} {goal corner : Point α} {number : NodeKey → Nat}
  {copies : List Edge}

/-- The copy of a node is of the same kind. -/
theorem Duplicated.exists_copy (h : g.Duplicated s goal corner number copies g' s') {n : Node α}
    (hn : n ∈ g.chosenNodes s) :
    ∃ c ∈ g'.nodes, c.key = copyKey number n.key ∧ c.kind = n.kind := by
  rw [h.nodes_eq]
  exact ⟨_, List.mem_append_right _ (List.mem_map_of_mem hn), rfl, rfl⟩

/-- So the copy of an edge is in the style of the copy of its source. -/
theorem Duplicated.styled (hdup : g.Duplicated s goal corner number copies g' s') (hg : g.Valid)
    (h : g.Styled) : g'.Styled := by
  refine h.extend (fun n hmem _ => ?_) fun e he => ?_
  · rw [hdup.nodes_eq]
    exact ⟨n, List.mem_append_left _ hmem, rfl, rfl⟩
  · rw [hdup.edges_eq] at he
    cases List.mem_append.mp he with
    | inl hold => exact Or.inl hold
    | inr hcopy =>
        obtain ⟨k, hk, hkey, hkind⟩ := exists_of_forall₂_of_mem hdup.edgeCopies hcopy
        obtain ⟨f, hf, hfkind⟩ := Option.map_eq_some_iff.mp hkind
        obtain ⟨hfmem, rfl⟩ := key_eq_of_edge? hf
        obtain ⟨n, hn, hnkey, hstyle⟩ := h f hfmem
        -- the node that is copied is the one that gives the copied edge its style
        obtain ⟨-, -, hsource, -⟩ := mem_chosenEdges.mp hk
        obtain ⟨m, hm, hmkey⟩ := List.mem_map.mp hsource
        have hsame : m = n :=
          node_unique hg (List.mem_of_mem_filter hm) hn (hmkey.trans hnkey.symm)
        obtain ⟨c, hc, hckey, hckind⟩ := hdup.exists_copy hm
        have hleaves : c.key = e.source := by
          rw [hckey, hmkey]
          exact (congrArg EdgeKey.source hkey).symm
        exact Or.inr ⟨c, hc, hleaves, by rw [← hfkind, hstyle, hckind, hsame]⟩

end Duplicated

/-- A graph in style is in style with its copies. -/
theorem Styled.duplicate [Scalar α] (h : g.Styled) (hg : g.Valid) (s : Selection)
    (goal : Point α) : (g.duplicate s goal).1.Styled := by
  cases hc : g.chosenNodes s with
  | nil =>
      rw [duplicate_of_chosenNodes_nil goal hc]
      exact h
  | cons n ns =>
      obtain ⟨number, copies, hdup⟩ := duplicated_duplicate hg s goal hc
      exact hdup.styled hg h

end Edits

/-- A valid styled graph stays styled under the edits that style it. -/
theorem Styled.edit [Scalar α] {g : Graph α} (h : g.Styled) (hg : g.Valid) {e : Edit α}
    (he : e.Styles g) : (g.edit e).Styled := by
  cases e with
  | insertNode p kind => exact h.of_subset (List.subset_append_left _ _) (List.Subset.refl _)
  | insertStartNode => exact h.of_subset (List.subset_cons_self _ _) (List.Subset.refl _)
  | deleteStartNode =>
      refine getD_map_fst_preserves h fun g' d hdelete => ?_
      obtain ⟨n, -, hnode⟩ := deleteStartNode?_eq_some hdelete
      exact h.deleteNode? hnode
  | moveNode k p => exact getD_preserves h fun _ hmove => h.moveNode? hmove
  | deleteNode k => exact getD_map_fst_preserves h fun _ _ hdelete => h.deleteNode? hdelete
  | insertEdge s t kind => exact getD_preserves h fun _ hinsert => h.insertEdge? he hinsert
  | retargetEdge k s t =>
      refine getD_preserves h fun g' hretarget => ?_
      have hsource : s = k.source := he
      rw [hsource] at hretarget
      exact h.retargetEdge? hretarget
  | deleteEdge k => exact getD_map_fst_preserves h fun _ _ hdelete => h.deleteEdge? hdelete
  | duplicate s goal => exact h.duplicate hg s goal

end GraphBoard.Graph
