import GraphBoard.Proofs.Editor.Answer
import GraphBoard.Proofs.Editor.Edits
import GraphBoard.Proofs.Graph.Delete

/-!
# GraphBoard.Proofs.Editor.Delete

What deletions leave of a graph being edited and of what is chosen in it.

* `deleteSelected_exact` — to delete what is chosen takes exactly that: the chosen nodes with the
  edges that touch them, and of the edges with a chosen key the first;
* `deleteNode_exact` — to delete one node leaves the other nodes, the edges that do not touch it and
  whatever else is chosen.
-/

namespace GraphBoard

/-- A list that two lists make up, each of them in its order. -/
inductive Interleaved {β : Type} : List β → List β → List β → Prop where
  | nil : Interleaved [] [] []
  | left {b : β} {xs ys zs : List β} (h : Interleaved xs ys zs) :
    Interleaved (b :: xs) ys (b :: zs)
  | right {b : β} {xs ys zs : List β} (h : Interleaved xs ys zs) :
    Interleaved xs (b :: ys) (b :: zs)

/-- A list is made up of what a test keeps and what it drops. -/
theorem interleaved_filter {β : Type} (p : β → Bool) (l : List β) :
    Interleaved (l.filter p) (l.filter fun b => !p b) l := by
  induction l with
  | nil => exact .nil
  | cons b l ih =>
      cases hb : p b with
      | true => simpa [hb] using ih.left
      | false => simpa [hb] using ih.right

variable {α : Type}

namespace Editor

variable {s : Editor α}

/-! ## What is chosen -/

/-- What is chosen goes by deletions only. -/
theorem deletes_of_mem_deletions {selection : Selection} {e : Graph.Edit α}
    (he : e ∈ deletions selection) : e.Deletes := by
  cases List.mem_append.mp he with
  | inl he =>
      obtain ⟨k, -, rfl⟩ := List.mem_map.mp he
      trivial
  | inr he =>
      obtain ⟨k, -, rfl⟩ := List.mem_map.mp he
      trivial

/-- In a sound state the answer is whether anything was chosen. -/
theorem snd_deleteSelected (hs : s.Sound) : s.deleteSelected.2 = !s.selection.isEmpty := by
  by_cases h : s.selection = .empty
  · have hempty : s.selection.isEmpty = true := Selection.isEmpty_iff.mpr h
    rw [deleteSelected, if_pos hempty, hempty]
    rfl
  · have hne : s.selection.isEmpty = false := by
      rw [← Bool.not_eq_true, Selection.isEmpty_iff]
      exact h
    rw [(deleteSelected_of_ne_empty hs h).1, hne]
    rfl

/-- Whether the edge at a place stays when what is chosen goes: neither of its ends is chosen, and
it is not the first edge with a chosen key. -/
def stays (s : Editor α) (r : Edge × Nat) : Bool :=
  !s.selection.hasNode r.1.source && !s.selection.hasNode r.1.target &&
    !(s.selection.hasEdge r.1.key && s.graph.edgeIndex? r.1.key == some r.2)

/-- The edges that stay are those that the deletions leave, first by their keys and then by their
ends. -/
theorem map_filter_stays (s : Editor α) :
    (s.graph.edges.zipIdx.filter s.stays).map Prod.fst =
      (Graph.withoutFirsts s.selection.hasEdge s.graph.edges).filter
        fun e => !s.selection.hasNode e.source && !s.selection.hasNode e.target := by
  rw [Graph.withoutFirsts, List.filter_map, List.filter_filter]
  rfl

variable [Scalar α]

/-- The deletion changes the graph, and nothing stays chosen. -/
theorem fst_deleteSelected (s : Editor α) : s.deleteSelected.1 =
    { s with graph := s.graph.editAll (deletions s.selection), selection := .empty } := by
  rw [← graph_deleteSelected]
  by_cases h : s.selection.isEmpty = true
  · rw [Editor.deleteSelected, if_pos h]
    simp only [← Selection.isEmpty_iff.mp h]
  · rw [Editor.deleteSelected, if_neg h]

/-- The deletions leave the nodes that are not chosen, and the edges that stay. -/
theorem editAll_deletions (hg : s.graph.Valid) : s.graph.editAll (deletions s.selection) =
    { s.graph with
      nodes := s.graph.nodes.filter fun n => !s.selection.hasNode n.key
      edges := (s.graph.edges.zipIdx.filter s.stays).map Prod.fst } := by
  -- The edges can go first, while each is at its old place.
  have hswap : (deletions (α := α) s.selection).Perm
      (s.selection.edges.toList.map .deleteEdge ++ s.selection.nodes.toList.map .deleteNode) :=
    List.perm_append_comm
  have hvalid : (s.graph.editAll (s.selection.edges.toList.map .deleteEdge)).Valid :=
    hg.editAll _
  rw [Graph.editAll_perm hswap hg fun e he => deletes_of_mem_deletions he, Graph.editAll_append,
    Graph.editAll_deleteNode hvalid, Graph.editAll_deleteEdge,
    Graph.foldl_eraseP_eq_withoutFirsts s.selection.edges.nodup_toList, map_filter_stays]
  rfl

/-- Of several edges with a chosen key, one goes if its ends stay. -/
theorem countP_editAll_deletions (hs : s.Sound) {k : EdgeKey} (hk : k ∈ s.selection.edges)
    (hsource : k.source ∉ s.selection.nodes) (htarget : k.target ∉ s.selection.nodes) :
    s.graph.edges.countP (·.key == k) =
      (s.graph.editAll (deletions s.selection)).edges.countP (·.key == k) + 1 := by
  obtain ⟨e, he, hek⟩ := hs.present.edge_mem k hk
  have hpos : 0 < s.graph.edges.countP (·.key == k) :=
    List.countP_pos_iff.mpr ⟨e, he, beq_iff_eq.mpr hek⟩
  have huntouched (f : Edge) : ((f.key == k) && (!s.selection.hasNode f.source &&
      !s.selection.hasNode f.target)) = (f.key == k) := by
    by_cases hf : f.key = k
    · have hs : s.selection.hasNode f.source = false := by
        simpa [Selection.hasNode, ← hf] using hsource
      have ht : s.selection.hasNode f.target = false := by
        simpa [Selection.hasNode, ← hf] using htarget
      simp [hs, ht]
    · simp [hf]
  have hdrops : s.selection.hasEdge k = true := Selection.hasEdge_iff.mpr hk
  rw [editAll_deletions hs.valid]
  simp only [map_filter_stays, List.countP_filter, huntouched, Graph.countP_withoutFirsts, hdrops,
    if_true]
  omega

/-- To delete what is chosen leaves the nodes that are not chosen and, of the edges between them,
all but the first with each chosen key; so of parallel edges with a chosen key all but one.  Nothing
stays chosen and nothing else changes, and the answer is whether anything was chosen.  The chosen
items can go in any order. -/
theorem deleteSelected_exact (hs : s.Reachable) :
    s.apply .deleteSelected =
      ({ s with
          graph := { s.graph with
            nodes := s.graph.nodes.filter fun n => !s.selection.hasNode n.key
            edges := (s.graph.edges.zipIdx.filter s.stays).map Prod.fst }
          selection := .empty },
        !s.selection.isEmpty) ∧
    (∀ k ∈ s.selection.edges, k.source ∉ s.selection.nodes → k.target ∉ s.selection.nodes →
      s.graph.edges.countP (·.key == k) =
        (s.apply .deleteSelected).1.graph.edges.countP (·.key == k) + 1) ∧
    ∀ order, order.Perm (deletions s.selection) →
      s.graph.editAll order = (s.apply .deleteSelected).1.graph := by
  have hsound := hs.sound
  refine ⟨?_, fun k hk hsource htarget => ?_, fun order horder => ?_⟩
  · show s.deleteSelected = _
    rw [← editAll_deletions hsound.valid, ← fst_deleteSelected, ← snd_deleteSelected hsound]
  · show _ = s.deleteSelected.1.graph.edges.countP _ + 1
    rw [graph_deleteSelected]
    exact countP_editAll_deletions hsound hk hsource htarget
  · show _ = s.deleteSelected.1.graph
    rw [graph_deleteSelected]
    exact (Graph.editAll_perm horder.symm hsound.valid
      fun e he => deletes_of_mem_deletions he).symm

/-- Of two parallel edges that are chosen one stays; the third edge goes with the node it enters,
before its key is looked for. -/
theorem deleteSelected_exact_lookalike :
    let s := (start Graph.lookalike true).run
      [.event (.selectNode "n1" true), .event (.selectEdge ⟨"a", "a_1"⟩ true),
        .event (.selectEdge ⟨"a_1", "n1"⟩ true)]
    s.Reachable ∧ (s.apply .deleteSelected).2 = true ∧
      (s.apply .deleteSelected).1.graph.keys = ["a", "a_1"] ∧
      (s.apply .deleteSelected).1.graph.edges = [⟨"a", "a_1", .empty⟩] ∧
      ∀ order, order.Perm (deletions s.selection) →
        s.graph.editAll order = (s.apply .deleteSelected).1.graph := by
  intro s
  have hs : s.Reachable :=
    ⟨Graph.lookalike, true, _, Graph.valid_lookalike, by simp [Action.Valid], rfl⟩
  obtain ⟨hresult, -, horder⟩ := deleteSelected_exact hs
  refine ⟨hs, ?_, ?_, ?_, horder⟩
  all_goals
    rw [hresult]
    decide +kernel

/-! ## One node -/

/-- What the deletion of a node leaves: the node goes and the others stay, the edges that touch it
go and are reported, and what was chosen stays chosen unless it went. -/
structure LosesNode (s : Editor α) (k : NodeKey) (d : Deleted α) (s' : Editor α) : Prop where
  key_eq : d.node.key = k
  nodes_eq : ∃ below above, s.graph.nodes = below ++ d.node :: above ∧
    s'.graph.nodes = below ++ above
  edges_eq : s'.graph.edges = s.graph.edges.filter fun e => !e.touches k
  reported_eq : d.edges = s.graph.edges.filter fun e => e.touches k
  interleaved : Interleaved d.edges s'.graph.edges s.graph.edges
  selection_eq : s'.selection =
    ⟨s.selection.nodes.erase k, s.selection.edges.filter fun l => !l.touches k⟩
  rest_eq : s' = { s with
    graph := { s.graph with nodes := s'.graph.nodes, edges := s'.graph.edges }
    selection := s'.selection }

omit [Scalar α] in
/-- What is chosen and forgotten when a node goes is the node and the edges that touch it, since
everything else that is chosen is still there. -/
theorem retain_of_deleteNode? (hs : s.Sound) {k : NodeKey} {g : Graph α} {d : Deleted α}
    (h : s.graph.deleteNode? k = some (g, d)) : s.selection.retain g =
      ⟨s.selection.nodes.erase k, s.selection.edges.filter fun l => !l.touches k⟩ := by
  have hnodes : s.selection.nodes.filter g.hasNode = s.selection.nodes.erase k := by
    apply OrderedSet.ext
    intro l
    rw [OrderedSet.mem_filter, OrderedSet.mem_erase, Graph.hasNode_iff,
      Graph.mem_keys_deleteNode? hs.valid h]
    constructor
    · intro hl
      exact ⟨hl.1, hl.2.2⟩
    · intro hl
      exact ⟨hl.1, hs.present.node_mem l hl.1, hl.2⟩
  have hedges : s.selection.edges.filter g.hasEdge =
      s.selection.edges.filter fun l => !l.touches k := by
    obtain ⟨-, -, rfl⟩ := Graph.deleteNode?_eq_some_iff.mp h
    apply OrderedSet.ext
    intro l
    rw [OrderedSet.mem_filter, OrderedSet.mem_filter, Graph.hasEdge_iff]
    constructor
    · intro hl
      obtain ⟨hchosen, e, he, rfl⟩ := hl
      exact ⟨hchosen, (List.mem_filter.mp he).2⟩
    · intro hl
      obtain ⟨hchosen, hkept⟩ := hl
      obtain ⟨e, he, rfl⟩ := hs.present.edge_mem l hchosen
      exact ⟨hchosen, e, List.mem_filter.mpr ⟨he, hkept⟩, rfl⟩
  rw [Selection.retain, hnodes, hedges]

omit [Scalar α] in
/-- A node that is deleted goes with its edges, and with their keys in the selection. -/
theorem losesNode_of_deleteNode? (hs : s.Sound) {k : NodeKey} {g : Graph α} {d : Deleted α}
    (h : s.graph.deleteNode? k = some (g, d)) : s.LosesNode k d (s.retaining g) := by
  have hselection := retain_of_deleteNode? hs h
  obtain ⟨below, above, hm, hreported, rfl⟩ := Graph.deleteNode?_eq_some_iff_firstMatch.mp h
  have hinterleaved := interleaved_filter (fun e : Edge => e.touches k) s.graph.edges
  rw [← hreported] at hinterleaved
  exact ⟨by simpa using hm.passes, ⟨below, above, hm.split, rfl⟩, rfl, hreported, hinterleaved,
    hselection, rfl⟩

/-- To delete a node that is there, by an event or as the first node, takes that node, the edges
that touch it and these from what is chosen, and nothing else. -/
theorem deleteNode_exact (hs : s.Reachable) {k : NodeKey} (hk : k ∈ s.graph.keys) :
    ∃ s' d, s.apply (.deleteNode k) = (s', true) ∧
      s.graph.deleteNode? k = some (s'.graph, d) ∧ s.LosesNode k d s' ∧
      ∀ n, s.graph.nodes.head? = some n → n.key = k →
        s.deleteStartNode = (s', true) ∧ s.graph.deleteStartNode? = some (s'.graph, d) := by
  have hthere : (s.graph.deleteNode? k).isSome := by
    rw [Graph.deleteNode?, Option.isSome_map]
    exact Graph.node?_isSome_iff.mpr hk
  obtain ⟨⟨g, d⟩, hdelete⟩ := Option.isSome_iff_exists.mp hthere
  refine ⟨s.retaining g, d, ?_, hdelete, losesNode_of_deleteNode? hs.sound hdelete, ?_⟩
  · rw [apply, hdelete]
  · intro n hfirst hn
    have hstart : s.graph.deleteStartNode? = some (g, d) := by
      rw [Graph.deleteStartNode?, hfirst, Option.bind_some, hn, hdelete]
    exact ⟨by rw [deleteStartNode, hstart], hstart⟩

/-- The first node goes with two parallel edges; the edge that touches it no more stays chosen. -/
theorem deleteNode_exact_lookalike :
    let s := (start Graph.lookalike true).run
      [.event (.selectNode "a" true), .event (.selectNode "n1" true),
        .event (.selectEdge ⟨"a", "a_1"⟩ true), .event (.selectEdge ⟨"a_1", "n1"⟩ true)]
    s.Reachable ∧ "a" ∈ s.graph.keys ∧
      ∃ s' d, s.apply (.deleteNode "a") = (s', true) ∧
        s.graph.deleteNode? "a" = some (s'.graph, d) ∧ s.LosesNode "a" d s' ∧
        ∀ n, s.graph.nodes.head? = some n → n.key = "a" →
          s.deleteStartNode = (s', true) ∧ s.graph.deleteStartNode? = some (s'.graph, d) := by
  intro s
  have hs : s.Reachable :=
    ⟨Graph.lookalike, true, _, Graph.valid_lookalike, by simp [Action.Valid], rfl⟩
  have hk : "a" ∈ s.graph.keys := by decide +kernel
  exact ⟨hs, hk, deleteNode_exact hs hk⟩

end Editor

end GraphBoard
