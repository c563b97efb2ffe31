import GraphBoard.Editor.Basic
import GraphBoard.Proofs.Graph.Copy

/-!
# GraphBoard.Proofs.Editor.Sound

What holds in an editor however it is used: its graph is valid, and its selection names items of
the graph.  `Sound` is the two together, since a paste keeps the second by means of the first.  The
lemmas are layered by what acts on the editor: a single event (`Sound.apply`), any action
(`Sound.perform`), a run of actions (`Sound.run`).
-/

namespace GraphBoard

variable {α : Type}

/-! ## Selections that name items of a graph -/

/-- Every chosen key is the key of an item of the graph. -/
structure Selection.Present (s : Selection) (g : Graph α) : Prop where
  node_mem : ∀ k ∈ s.nodes, k ∈ g.keys
  edge_mem : ∀ k ∈ s.edges, ∃ e ∈ g.edges, e.key = k

namespace Selection

variable {s : Selection} {g g' : Graph α}

theorem present_empty (g : Graph α) : empty.Present g :=
  ⟨fun k hk => absurd hk (OrderedSet.not_mem_empty k),
    fun k hk => absurd hk (OrderedSet.not_mem_empty k)⟩

/-- A node that is there may be chosen alone. -/
theorem present_ofNode {k : NodeKey} (hk : k ∈ g.keys) : (ofNode k).Present g := by
  refine ⟨fun l hl => ?_, fun l hl => absurd hl (OrderedSet.not_mem_empty l)⟩
  rw [OrderedSet.mem_singleton.mp hl]
  exact hk

/-- An edge that is there may be chosen alone. -/
theorem present_ofEdge {k : EdgeKey} (hk : ∃ e ∈ g.edges, e.key = k) : (ofEdge k).Present g := by
  refine ⟨fun l hl => absurd hl (OrderedSet.not_mem_empty l), fun l hl => ?_⟩
  rw [OrderedSet.mem_singleton.mp hl]
  exact hk

/-- What is kept of a selection is there. -/
theorem present_retain (s : Selection) (g : Graph α) : (s.retain g).Present g := by
  refine ⟨fun k hk => ?_, fun k hk => ?_⟩
  · exact Graph.hasNode_iff.mp (OrderedSet.mem_filter.mp hk).2
  · exact Graph.hasEdge_iff.mp (OrderedSet.mem_filter.mp hk).2

/-- A node that is there may be toggled. -/
theorem Present.toggleNode (h : s.Present g) {k : NodeKey} (hk : k ∈ g.keys) :
    (s.toggleNode k).Present g := by
  refine ⟨fun l hl => ?_, h.edge_mem⟩
  cases OrderedSet.mem_toggle.mp hl with
  | inl hl => exact h.node_mem l hl.1
  | inr hl => rw [hl.1]; exact hk

theorem Present.toggleEdge (h : s.Present g) {k : EdgeKey} (hk : ∃ e ∈ g.edges, e.key = k) :
    (s.toggleEdge k).Present g := by
  refine ⟨h.node_mem, fun l hl => ?_⟩
  cases OrderedSet.mem_toggle.mp hl with
  | inl hl => exact h.edge_mem l hl.1
  | inr hl => rw [hl.1]; exact hk

/-- A selection stays present while keys only come and the edges stay. -/
theorem Present.of_subset (h : s.Present g) (hk : g.keys ⊆ g'.keys) (he : g'.edges = g.edges) :
    s.Present g' :=
  ⟨fun k hs => hk (h.node_mem k hs), fun k hs => he ▸ h.edge_mem k hs⟩

end Selection

/-- What is chosen after a copy are the copies, which are there. -/
theorem Graph.Duplicated.present [Scalar α] {g g' : Graph α} {s s' : Selection}
    {goal corner : Point α} {number : NodeKey → Nat} {copies : List Edge}
    (h : g.Duplicated s goal corner number copies g' s') : s'.Present g' := by
  refine ⟨fun k hk => ?_, fun k hk => ?_⟩
  · obtain ⟨n, hn, rfl⟩ := (h.mem_nodes k).mp hk
    exact h.copyKey_mem_keys (List.mem_map_of_mem hn)
  · obtain ⟨e, he, hek⟩ := (h.mem_edges k).mp hk
    exact ⟨e, h.edges_eq ▸ List.mem_append_right _ he, hek⟩

/-- What is chosen after a copy is there. -/
theorem Graph.present_duplicate [Scalar α] {g : Graph α} (hg : g.Valid) (s : Selection)
    (goal : Point α) : (g.duplicate s goal).2.Present (g.duplicate s goal).1 := by
  cases hc : g.chosenNodes s with
  | nil =>
      rw [duplicate_of_chosenNodes_nil goal hc]
      exact Selection.present_empty g
  | cons n ns =>
      obtain ⟨number, copies, hdup⟩ := duplicated_duplicate hg s goal hc
      exact hdup.present

namespace Editor

/-- The graph is valid and the selection names items of it. -/
structure Sound (s : Editor α) : Prop where
  valid : s.graph.Valid
  present : s.selection.Present s.graph

/-- An editor starts in a sound state. -/
theorem sound_start {g : Graph α} (hg : g.Valid) (multiselect : Bool) :
    (start g multiselect).Sound :=
  ⟨hg, Selection.present_empty g⟩

/-- A state is sound that goes on with a valid graph. -/
theorem sound_retaining (s : Editor α) {g : Graph α} (hg : g.Valid) : (s.retaining g).Sound :=
  ⟨hg, Selection.present_retain s.selection g⟩

/-! ## Deleting what is chosen -/

/-- What each deletion keeps, all keep. -/
theorem foldl_drop_preserves {κ : Type} {drop : Graph α → κ → Graph α × Bool}
    {P : Graph α → Prop} (hdrop : ∀ g k, P g → P (drop g k).1) (ks : List κ)
    (r : Graph α × Bool) (hr : P r.1) :
    P (ks.foldl (fun r k => let (g', dropped) := drop r.1 k; (g', r.2 || dropped)) r).1 := by
  induction ks generalizing r with
  | nil => exact hr
  | cons k ks ih => exact ih _ (hdrop r.1 k hr)

/-- What the deletion of one item keeps, that of several does. -/
theorem dropAll_preserves {κ : Type} {drop : Graph α → κ → Graph α × Bool} {P : Graph α → Prop}
    (hdrop : ∀ g k, P g → P (drop g k).1) (ks : List κ) {g : Graph α} (hg : P g) :
    P (dropAll drop g ks).1 :=
  foldl_drop_preserves hdrop ks (g, false) hg

/-- A graph stays valid when a node goes. -/
theorem valid_dropNode (g : Graph α) (k : NodeKey) (hg : g.Valid) : (dropNode g k).1.Valid := by
  rw [dropNode]
  cases h : g.deleteNode? k with
  | none => exact hg
  | some r => exact hg.deleteNode? h

theorem valid_dropEdge (g : Graph α) (k : EdgeKey) (hg : g.Valid) : (dropEdge g k).1.Valid := by
  rw [dropEdge]
  cases h : g.deleteEdge? k with
  | none => exact hg
  | some r => exact hg.deleteEdge? h

/-- A state stays sound when what is chosen goes. -/
theorem Sound.deleteSelected {s : Editor α} (hs : s.Sound) : s.deleteSelected.1.Sound := by
  rw [Editor.deleteSelected]
  by_cases he : s.selection.isEmpty = true
  · rw [if_pos he]
    exact hs
  · rw [if_neg he]
    have hnodes := dropAll_preserves valid_dropNode s.selection.nodes.toList hs.valid
    have hedges := dropAll_preserves valid_dropEdge s.selection.edges.toList hnodes
    exact ⟨hedges, Selection.present_empty _⟩

/-! ## Picking and pasting -/

/-- After the pick of a node that is there, what is chosen is there. -/
theorem Sound.present_pickNode {s : Editor α} (hs : s.Sound) {k : NodeKey} (additive : Bool)
    (hk : k ∈ s.graph.keys) : (s.pickNode k additive).Present s.graph := by
  rw [pickNode]
  by_cases h : (additive && s.multiselect) = true
  · rw [if_pos h]
    exact hs.present.toggleNode hk
  · rw [if_neg h]
    exact Selection.present_ofNode hk

/-- After the pick of an edge that is there, what is chosen is there. -/
theorem Sound.present_pickEdge {s : Editor α} (hs : s.Sound) {k : EdgeKey} (additive : Bool)
    (hk : ∃ e ∈ s.graph.edges, e.key = k) : (s.pickEdge k additive).Present s.graph := by
  rw [pickEdge]
  by_cases h : (additive && s.multiselect) = true
  · rw [if_pos h]
    exact hs.present.toggleEdge hk
  · rw [if_neg h]
    exact Selection.present_ofEdge hk

variable [Scalar α] {s : Editor α}

/-- To paste is declined if no node is chosen. -/
theorem apply_paste_of_nil (p : Point α) (hc : s.graph.chosenNodes s.selection = []) :
    s.apply (.paste p) = (s, false) := by
  rw [Editor.apply, Graph.duplicate_of_chosenNodes_nil p hc]
  rfl

/-- To paste copies what is chosen, if a node is. -/
theorem apply_paste_of_ne_nil (hs : s.graph.Valid) (p : Point α)
    (hc : s.graph.chosenNodes s.selection ≠ []) :
    s.apply (.paste p) = ({ s with
      graph := (s.graph.duplicate s.selection p).1
      selection := (s.graph.duplicate s.selection p).2 }, true) := by
  have hne : ¬ (s.graph.duplicate s.selection p).2.isEmpty = true := fun he =>
    hc ((Graph.isEmpty_duplicate_iff hs s.selection p).mp he)
  exact if_neg hne

/-! ## One event -/

/-- An event keeps a state sound. -/
theorem Sound.apply (hs : s.Sound) (e : Event α) : (s.apply e).1.Sound := by
  cases e with
  | createNode p =>
      refine ⟨hs.valid.insertNode p _, hs.present.of_subset ?_ rfl⟩
      rw [Editor.apply, Graph.keys_insertNode]
      exact List.subset_append_left _ _
  | updateNode k p =>
      rw [Editor.apply]
      cases h : s.graph.moveNode? k p with
      | none => exact hs
      | some g =>
          have hk := Graph.keys_moveNode? h
          have he := Graph.edges_of_moveNode? h
          exact ⟨hs.valid.moveNode? h, hs.present.of_subset (hk ▸ List.Subset.refl _) he⟩
  | deleteNode k =>
      rw [Editor.apply]
      cases h : s.graph.deleteNode? k with
      | none => exact hs
      | some r => exact sound_retaining s (hs.valid.deleteNode? h)
  | deleteSelected => exact hs.deleteSelected
  | createEdge source target =>
      rw [Editor.apply]
      cases hn : s.graph.node? source with
      | none => exact hs
      | some n =>
          simp only []
          cases h : s.graph.insertEdge? source target (.ofSource n.kind) with
          | none => exact hs
          | some g =>
              refine ⟨hs.valid.insertEdge? h, Selection.present_ofEdge ?_⟩
              obtain ⟨-, rfl⟩ := Graph.insertEdge?_eq_some_iff.mp h
              exact ⟨_, List.mem_append_right _ List.mem_cons_self, rfl⟩
  | swapEdge edge source target =>
      rw [Editor.apply]
      cases h : s.graph.retargetEdge? edge source target with
      | none => exact hs
      | some g =>
          refine ⟨hs.valid.retargetEdge? h, Selection.present_ofEdge ?_⟩
          obtain ⟨-, xs, f, ys, -, rfl⟩ := Graph.retargetEdge?_eq_some_iff.mp h
          exact ⟨_, List.mem_append_right _ List.mem_cons_self, rfl⟩
  | deleteEdge edge =>
      rw [Editor.apply]
      cases h : s.graph.deleteEdge? edge with
      | none => exact hs
      | some r => exact ⟨hs.valid.deleteEdge? h, Selection.present_empty _⟩
  | selectNode k additive =>
      rw [Editor.apply]
      by_cases hk : s.graph.hasNode k = true
      · rw [if_pos hk]
        exact ⟨hs.valid, hs.present_pickNode additive (Graph.hasNode_iff.mp hk)⟩
      · rw [if_neg hk]
        exact hs
  | selectEdge k additive =>
      rw [Editor.apply]
      by_cases hk : s.graph.hasEdge k = true
      · rw [if_pos hk]
        exact ⟨hs.valid, hs.present_pickEdge additive (Graph.hasEdge_iff.mp hk)⟩
      · rw [if_neg hk]
        exact hs
  | clearSelection => exact ⟨hs.valid, Selection.present_empty _⟩
  | copy => exact hs
  | paste p =>
      by_cases hc : s.graph.chosenNodes s.selection = []
      · rw [apply_paste_of_nil p hc]
        exact hs
      · rw [apply_paste_of_ne_nil hs.valid p hc]
        exact ⟨hs.valid.duplicate s.selection p, Graph.present_duplicate hs.valid s.selection p⟩
  | undo => exact hs

/-! ## Runs -/

/-- An action keeps to valid graphs if the graph that it brings, if any, is valid. -/
def Action.Valid : Action α → Prop
  | .replaceGraph g => g.Valid
  | _ => True

/-- An action keeps a state sound. -/
theorem Sound.perform (hs : s.Sound) {a : Action α} (ha : a.Valid) : (s.perform a).1.Sound := by
  cases a with
  | event e => exact hs.apply e
  | replaceGraph g => exact ⟨ha, Selection.present_empty g⟩
  | addStartNode =>
      refine ⟨hs.valid.insertStartNode, hs.present.of_subset ?_ rfl⟩
      show _ ⊆ s.graph.insertStartNode.1.keys
      rw [Graph.keys_insertStartNode]
      exact List.subset_cons_self _ _
  | deleteStartNode =>
      rw [Editor.perform, Editor.deleteStartNode]
      cases h : s.graph.deleteStartNode? with
      | none => exact hs
      | some r => exact sound_retaining s (hs.valid.deleteStartNode? h)

/-- A run of actions keeps a state sound. -/
theorem Sound.run (hs : s.Sound) {actions : List (Action α)} (ha : ∀ a ∈ actions, a.Valid) :
    (s.run actions).Sound := by
  rw [Editor.run]
  induction actions generalizing s with
  | nil => exact hs
  | cons a actions ih =>
      rw [List.foldl_cons]
      exact ih (hs.perform (ha a List.mem_cons_self))
        fun b hb => ha b (List.mem_cons_of_mem a hb)

/-- The states of an editor that was started on a valid graph and was given valid graphs only. -/
def Reachable (s : Editor α) : Prop :=
  ∃ (g : Graph α) (multiselect : Bool) (actions : List (Action α)),
    g.Valid ∧ (∀ a ∈ actions, a.Valid) ∧ s = (start g multiselect).run actions

/-- A state that can be reached is sound. -/
theorem Reachable.sound (hs : s.Reachable) : s.Sound := by
  obtain ⟨g, multiselect, actions, hg, ha, rfl⟩ := hs
  exact (sound_start hg multiselect).run ha

/-- The selection is never stale: however an editor is used, what is chosen is there. -/
theorem selection_present_of_run {g : Graph α} (hg : g.Valid) (multiselect : Bool)
    {actions : List (Action α)} (ha : ∀ a ∈ actions, a.Valid) :
    let s := (start g multiselect).run actions
    (∀ k ∈ s.selection.nodes, ∃ n ∈ s.graph.nodes, n.key = k) ∧
      ∀ k ∈ s.selection.edges, ∃ e ∈ s.graph.edges, e.key = k := by
  have hs := (sound_start hg multiselect).run ha
  exact ⟨fun k hk => Graph.mem_keys.mp (hs.present.node_mem k hk), hs.present.edge_mem⟩

/-- Both of two parallel edges are chosen by their key, and they go with the node they enter. -/
theorem selection_present_of_run_lookalike :
    let s := (start Graph.lookalike true).run
      [.event (.selectNode "a" true), .event (.selectEdge ⟨"a", "a_1"⟩ true),
        .event (.deleteNode "a_1"), .event (.paste ⟨10.0, 10.0⟩), .deleteStartNode]
    (∀ k ∈ s.selection.nodes, ∃ n ∈ s.graph.nodes, n.key = k) ∧
      ∀ k ∈ s.selection.edges, ∃ e ∈ s.graph.edges, e.key = k :=
  selection_present_of_run Graph.valid_lookalike true (by simp [Action.Valid])

end Editor

end GraphBoard
