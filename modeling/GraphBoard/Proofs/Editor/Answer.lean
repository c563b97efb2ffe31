import GraphBoard.Proofs.Editor.Sound

/-!
# GraphBoard.Proofs.Editor.Answer

What the answer of an event says about the state.  A board is drawn anew only when an event answers
that it was carried out, so an answer `false` has to leave everything as it was.  An answer `true`
means a change but for the events of `Idle`, which are carried out and change nothing.

`AnswerExact` is this statement for one result; `answerExact_apply` has a case for each event.
-/

namespace GraphBoard

variable {α : Type}

/-! ## Selections -/

/-- To toggle a key changes a set. -/
theorem OrderedSet.toggle_ne_self {κ : Type} [Ord κ] [DecidableEq κ] [Std.TransOrd κ]
    [Std.LawfulEqOrd κ] (s : OrderedSet κ) (k : κ) : s.toggle k ≠ s := by
  intro h
  have hk : k ∈ s.toggle k ↔ k ∈ s := by rw [h]
  rw [mem_toggle] at hk
  by_cases hmem : k ∈ s
  · simp [hmem] at hk
  · simp [hmem] at hk

/-- There is one empty selection. -/
theorem Selection.isEmpty_iff {s : Selection} : s.isEmpty = true ↔ s = .empty := by
  obtain ⟨⟨ns, hn⟩, ⟨es, he⟩⟩ := s
  simp [isEmpty, OrderedSet.isEmpty, empty, OrderedSet.empty]

/-! ## Edits that change the graph -/

namespace Graph

variable {g g' : Graph α}

/-- A move leaves a valid graph as it is exactly if the node is at the point already. -/
theorem moveNode?_eq_self_iff (hg : g.Valid) {k : NodeKey} {p : Point α}
    (h : g.moveNode? k p = some g') :
    g' = g ↔ ∃ n ∈ g.nodes, n.key = k ∧ n.position = p := by
  obtain ⟨xs, n, ys, hm, rfl⟩ := moveNode?_eq_some_iff.mp h
  have hk : n.key = k := by simpa using hm.passes
  constructor
  · intro he
    have hnodes := congrArg nodes he
    rw [hm.split, List.append_cancel_left_eq, List.cons.injEq] at hnodes
    exact ⟨n, hm.mem, hk, (congrArg Node.position hnodes.1).symm⟩
  · intro he
    obtain ⟨m, hmem, hmk, rfl⟩ := he
    have hmn : m = n := node_unique hg hmem hm.mem (hmk.trans hk.symm)
    subst hmn
    show { g with nodes := xs ++ m :: ys } = g
    rw [← hm.split]

/-- To delete a node changes a graph. -/
theorem ne_of_deleteNode? {k : NodeKey} {d : Deleted α} (h : g.deleteNode? k = some (g', d)) :
    g' ≠ g := by
  obtain ⟨xs, ys, hm, -, rfl⟩ := deleteNode?_eq_some_iff_firstMatch.mp h
  intro he
  have hlen := congrArg (fun g => g.nodes.length) he
  simp [hm.split] at hlen

/-- To insert an edge changes a graph. -/
theorem ne_of_insertEdge? {s t : NodeKey} {kind : EdgeKind}
    (h : g.insertEdge? s t kind = some g') : g' ≠ g := by
  obtain ⟨-, rfl⟩ := insertEdge?_eq_some_iff.mp h
  intro he
  have hlen := congrArg (fun g => g.edges.length) he
  simp at hlen

/-- To lead an edge elsewhere leaves a graph as it is exactly if the edge joins these ends already.
-/
theorem retargetEdge?_eq_self_iff {k : EdgeKey} {s t : NodeKey}
    (h : g.retargetEdge? k s t = some g') : g' = g ↔ k = ⟨s, t⟩ := by
  obtain ⟨-, xs, e, ys, hm, rfl⟩ := retargetEdge?_eq_some_iff.mp h
  have hk : e.key = k := by simpa using hm.passes
  constructor
  · intro he
    have hedges := congrArg edges he
    rw [hm.split, List.append_cancel_left_eq, List.cons.injEq] at hedges
    rw [← hk, ← hedges.1, Edge.key_between]
  · intro he
    have hs : e.source = s := congrArg EdgeKey.source (hk.trans he)
    have ht : e.target = t := congrArg EdgeKey.target (hk.trans he)
    have hself : e.between s t = e := by rw [← hs, ← ht]; rfl
    rw [hself, ← hm.split]

/-- To delete an edge changes a graph. -/
theorem ne_of_deleteEdge? {k : EdgeKey} {e : Edge} (h : g.deleteEdge? k = some (g', e)) :
    g' ≠ g := by
  obtain ⟨xs, ys, hm, rfl⟩ := deleteEdge?_eq_some_iff_firstMatch.mp h
  intro he
  have hlen := congrArg (fun g => g.edges.length) he
  simp [hm.split] at hlen

/-- To copy what is chosen changes a valid graph, if a node is chosen. -/
theorem duplicate_ne_self [Scalar α] (hg : g.Valid) {s : Selection} (goal : Point α)
    (hc : g.chosenNodes s ≠ []) : (g.duplicate s goal).1 ≠ g := by
  obtain ⟨n, ns, hc⟩ := List.exists_cons_of_ne_nil hc
  obtain ⟨number, copies, hdup⟩ := duplicated_duplicate hg s goal hc
  intro he
  have hlen := congrArg List.length hdup.nodes_eq
  simp [he, hc] at hlen

end Graph

namespace Editor

/-! ## Exact answers -/

/-- The events that are carried out and leave everything as it was: a node is moved to where it
is, what is the whole selection is chosen alone once more, or the one chosen edge is led between
its own ends. -/
def Idle (s : Editor α) : Event α → Prop
  | .updateNode k p => ∃ n ∈ s.graph.nodes, n.key = k ∧ n.position = p
  | .swapEdge edge source target => edge = ⟨source, target⟩ ∧ s.selection = .ofEdge edge
  | .selectNode k additive =>
    (additive && s.multiselect) = false ∧ k ∈ s.graph.keys ∧ s.selection = .ofNode k
  | .selectEdge k additive =>
    (additive && s.multiselect) = false ∧ (∃ e ∈ s.graph.edges, e.key = k) ∧
      s.selection = .ofEdge k
  | _ => False

/-- A result says `false` only of the same state, and `true` of another one unless `idle`. -/
def AnswerExact (s : Editor α) (idle : Prop) (r : Editor α × Bool) : Prop :=
  (r.2 = false → r.1 = s) ∧ (r.2 = true → (r.1 = s ↔ idle))

section AnswerExact

variable {s s' : Editor α} {idle : Prop}

/-- An event that is declined leaves the state as it is. -/
theorem answerExact_declined (s : Editor α) (idle : Prop) : AnswerExact s idle (s, false) :=
  ⟨fun _ => rfl, nofun⟩

/-- An event that is carried out changes the state unless it is idle. -/
theorem answerExact_done (h : s' = s ↔ idle) : AnswerExact s idle (s', true) :=
  ⟨nofun, fun _ => h⟩

/-- An event that changes the graph is carried out. -/
theorem answerExact_of_graph_ne (h : s'.graph ≠ s.graph) : AnswerExact s False (s', true) :=
  answerExact_done (iff_of_false (fun he => h (congrArg graph he)) not_false)

/-- An event that changes the selection is carried out. -/
theorem answerExact_of_selection_ne (h : s'.selection ≠ s.selection) :
    AnswerExact s False (s', true) :=
  answerExact_done (iff_of_false (fun he => h (congrArg selection he)) not_false)

end AnswerExact

/-! ## Deleting what is chosen -/

/-- A node that is there is deleted. -/
theorem dropNode_of_mem {g : Graph α} {k : NodeKey} (hk : k ∈ g.keys) :
    (dropNode g k).2 = true := by
  rw [← Graph.node?_isSome_iff] at hk
  obtain ⟨n, hn⟩ := Option.isSome_iff_exists.mp hk
  rw [dropNode, Graph.deleteNode?, hn]
  rfl

theorem dropEdge_of_mem {g : Graph α} {k : EdgeKey} (hk : ∃ e ∈ g.edges, e.key = k) :
    (dropEdge g k).2 = true := by
  have hsome : (g.edge? k).isSome := by simpa [Graph.edge?] using hk
  obtain ⟨e, he⟩ := Option.isSome_iff_exists.mp hsome
  rw [dropEdge, Graph.deleteEdge?, he]
  rfl

section DropAll

variable {κ : Type} {drop : Graph α → κ → Graph α × Bool}

/-- Once an item was there, the answer stays the same. -/
theorem foldl_drop_of_dropped (ks : List κ) (r : Graph α × Bool) (hr : r.2 = true) :
    (ks.foldl (fun r k => let (g', dropped) := drop r.1 k; (g', r.2 || dropped)) r).2 = true := by
  induction ks generalizing r with
  | nil => exact hr
  | cons k ks ih =>
      rw [List.foldl_cons]
      apply ih
      show (r.2 || (drop r.1 k).2) = true
      rw [hr, Bool.true_or]

/-- If the first item is there, one of the items is. -/
theorem dropAll_cons_of_dropped {g : Graph α} {k : κ} (ks : List κ) (hk : (drop g k).2 = true) :
    (dropAll drop g (k :: ks)).2 = true := by
  rw [dropAll, List.foldl_cons]
  apply foldl_drop_of_dropped
  show (false || (drop g k).2) = true
  rw [hk, Bool.false_or]

end DropAll

/-- A selection that is not stale holds something to delete: its first node, or else its first
edge, for no edge goes before the nodes do. -/
theorem deleteSelected_of_ne_empty {s : Editor α} (hs : s.Sound) (h : s.selection ≠ .empty) :
    s.deleteSelected.2 = true ∧ s.deleteSelected.1.selection = .empty := by
  have hne : ¬ s.selection.isEmpty = true := fun he => h (Selection.isEmpty_iff.mp he)
  have hnodes := hs.present.node_mem
  have hedges := hs.present.edge_mem
  simp only [← OrderedSet.mem_toList] at hnodes hedges
  rw [deleteSelected, if_neg hne]
  refine ⟨?_, rfl⟩
  rw [Bool.or_eq_true]
  cases hn : s.selection.nodes.toList with
  | cons k ks =>
      have hk := hnodes k (hn ▸ List.mem_cons_self)
      exact Or.inl (dropAll_cons_of_dropped ks (dropNode_of_mem hk))
  | nil =>
      cases he : s.selection.edges.toList with
      | cons k ks =>
          have hk := hedges k (he ▸ List.mem_cons_self)
          exact Or.inr (dropAll_cons_of_dropped ks (dropEdge_of_mem hk))
      | nil =>
          have hempty : s.selection.isEmpty = true := by
            simp [Selection.isEmpty, OrderedSet.isEmpty, hn, he]
          contradiction

/-- In a sound state the deletion of what is chosen tells whether anything was. -/
theorem Sound.answerExact_deleteSelected {s : Editor α} (hs : s.Sound) :
    AnswerExact s False s.deleteSelected := by
  by_cases h : s.selection = .empty
  · rw [Editor.deleteSelected, if_pos (Selection.isEmpty_iff.mpr h)]
    exact answerExact_declined s False
  · obtain ⟨hanswer, hselection⟩ := deleteSelected_of_ne_empty hs h
    have hr : s.deleteSelected = (s.deleteSelected.1, true) := Prod.ext rfl hanswer
    rw [hr]
    exact answerExact_of_selection_ne (hselection ▸ Ne.symm h)

/-! ## Choosing -/

/-- A pick of a node changes nothing exactly if the node is the whole selection and is chosen alone.
-/
theorem pickNode_eq_self_iff {s : Editor α} {k : NodeKey} {additive : Bool} :
    s.pickNode k additive = s.selection ↔
      (additive && s.multiselect) = false ∧ s.selection = .ofNode k := by
  rw [pickNode]
  cases additive && s.multiselect with
  | true =>
      have hne : s.selection.toggleNode k ≠ s.selection := fun he =>
        OrderedSet.toggle_ne_self s.selection.nodes k (congrArg Selection.nodes he)
      simp [hne]
  | false => simp [eq_comm]

/-- A pick of an edge changes nothing exactly if the edge is the whole selection and is chosen
alone. -/
theorem pickEdge_eq_self_iff {s : Editor α} {k : EdgeKey} {additive : Bool} :
    s.pickEdge k additive = s.selection ↔
      (additive && s.multiselect) = false ∧ s.selection = .ofEdge k := by
  rw [pickEdge]
  cases additive && s.multiselect with
  | true =>
      have hne : s.selection.toggleEdge k ≠ s.selection := fun he =>
        OrderedSet.toggle_ne_self s.selection.edges k (congrArg Selection.edges he)
      simp [hne]
  | false => simp [eq_comm]

/-- A state with another selection is the same exactly if the selection is. -/
theorem with_selection_eq_self_iff {s : Editor α} {selection : Selection} :
    { s with selection } = s ↔ selection = s.selection :=
  ⟨fun h => congrArg Editor.selection h, fun h => by rw [h]⟩

theorem with_graph_eq_self_iff {s : Editor α} {graph : Graph α} :
    { s with graph } = s ↔ graph = s.graph :=
  ⟨fun h => congrArg Editor.graph h, fun h => by rw [h]⟩

/-- To lead an edge elsewhere and choose it changes nothing exactly if it is the whole selection and
joins these ends already. -/
theorem with_retargeted_eq_self_iff {s : Editor α} {g : Graph α} {edge : EdgeKey}
    {source target : NodeKey} (h : s.graph.retargetEdge? edge source target = some g) :
    { s with graph := g, selection := .ofEdge ⟨source, target⟩ } = s ↔
      edge = ⟨source, target⟩ ∧ s.selection = .ofEdge edge := by
  have hself := Graph.retargetEdge?_eq_self_iff h
  constructor
  · intro he
    have hkey : edge = ⟨source, target⟩ := hself.mp (congrArg graph he)
    exact ⟨hkey, hkey ▸ (congrArg Editor.selection he).symm⟩
  · intro he
    obtain ⟨hkey, hselection⟩ := he
    rw [hself.mpr hkey, ← hkey, ← hselection]

/-- To forget the selection changes the state exactly if something was chosen. -/
theorem answerExact_cleared (s : Editor α) :
    AnswerExact s False ({ s with selection := .empty }, !s.selection.isEmpty) := by
  by_cases h : s.selection = .empty
  · rw [Selection.isEmpty_iff.mpr h, ← h]
    exact answerExact_declined s False
  · have hne : s.selection.isEmpty = false := by
      rw [← Bool.not_eq_true, Selection.isEmpty_iff]
      exact h
    rw [hne]
    exact answerExact_of_selection_ne (Ne.symm h)

/-! ## The answer of an event -/

variable [Scalar α] {s : Editor α}

/-- In a sound state every event answers as it should. -/
theorem Sound.answerExact_apply (hs : s.Sound) (e : Event α) :
    AnswerExact s (s.Idle e) (s.apply e) := by
  cases e with
  | createNode p =>
      refine answerExact_done (iff_of_false (fun h => ?_) not_false)
      have hcreated : s.created + 1 = s.created := congrArg created h
      omega
  | updateNode k p =>
      rw [Editor.apply]
      cases h : s.graph.moveNode? k p with
      | none => exact answerExact_declined s _
      | some g =>
          apply answerExact_done
          rw [with_graph_eq_self_iff]
          exact Graph.moveNode?_eq_self_iff hs.valid h
  | deleteNode k =>
      rw [Editor.apply]
      cases h : s.graph.deleteNode? k with
      | none => exact answerExact_declined s _
      | some r => exact answerExact_of_graph_ne (Graph.ne_of_deleteNode? h)
  | deleteSelected => exact hs.answerExact_deleteSelected
  | createEdge source target =>
      rw [Editor.apply]
      cases hn : s.graph.node? source with
      | none => exact answerExact_declined s _
      | some n =>
          simp only []
          cases h : s.graph.insertEdge? source target (.ofSource n.kind) with
          | none => exact answerExact_declined s _
          | some g => exact answerExact_of_graph_ne (Graph.ne_of_insertEdge? h)
  | swapEdge edge source target =>
      rw [Editor.apply]
      cases h : s.graph.retargetEdge? edge source target with
      | none => exact answerExact_declined s _
      | some g =>
          apply answerExact_done
          exact with_retargeted_eq_self_iff h
  | deleteEdge edge =>
      rw [Editor.apply]
      cases h : s.graph.deleteEdge? edge with
      | none => exact answerExact_declined s _
      | some r => exact answerExact_of_graph_ne (Graph.ne_of_deleteEdge? h)
  | selectNode k additive =>
      rw [Editor.apply]
      by_cases hk : s.graph.hasNode k = true
      · rw [if_pos hk]
        apply answerExact_done
        rw [with_selection_eq_self_iff, pickNode_eq_self_iff]
        simp [Idle, Graph.hasNode_iff.mp hk]
      · rw [if_neg hk]
        exact answerExact_declined s _
  | selectEdge k additive =>
      rw [Editor.apply]
      by_cases hk : s.graph.hasEdge k = true
      · rw [if_pos hk]
        apply answerExact_done
        rw [with_selection_eq_self_iff, pickEdge_eq_self_iff]
        have hmem : ∃ e ∈ s.graph.edges, e.key = k := Graph.hasEdge_iff.mp hk
        simp only [Idle, hmem, true_and]
      · rw [if_neg hk]
        exact answerExact_declined s _
  | clearSelection => exact answerExact_cleared s
  | copy => exact answerExact_declined s _
  | paste p =>
      by_cases hc : s.graph.chosenNodes s.selection = []
      · rw [apply_paste_of_nil p hc]
        exact answerExact_declined s _
      · rw [apply_paste_of_ne_nil hs.valid p hc]
        exact answerExact_of_graph_ne (Graph.duplicate_ne_self hs.valid p hc)
  | undo => exact answerExact_declined s _

/-- The answer of an event is exact in every state that an editor can be brought into. -/
theorem apply_answer_exact (hs : s.Reachable) (e : Event α) :
    ((s.apply e).2 = false → (s.apply e).1 = s) ∧
      ((s.apply e).2 = true → ((s.apply e).1 = s ↔ s.Idle e)) :=
  hs.sound.answerExact_apply e

/-- To choose an edge alone once more is carried out and changes nothing; to choose it in addition
takes it out of the selection. -/
theorem apply_answer_exact_lookalike :
    let s := (start Graph.lookalike true).run
      [.event (.selectNode "a" true), .event (.selectEdge ⟨"a", "a_1"⟩ false)]
    s.Reachable ∧ (s.apply (.selectEdge ⟨"a", "a_1"⟩ false)).1 = s ∧
      (s.apply (.selectEdge ⟨"a", "a_1"⟩ true)).1 ≠ s := by
  intro s
  have hs : s.Reachable :=
    ⟨Graph.lookalike, true, _, Graph.valid_lookalike, by simp [Action.Valid], rfl⟩
  have hidle : s.Idle (.selectEdge ⟨"a", "a_1"⟩ false) :=
    ⟨rfl, by decide, Selection.singleEdge?_eq_some_iff.mp (by decide)⟩
  have hbusy : ¬ s.Idle (.selectEdge ⟨"a", "a_1"⟩ true) := fun h => absurd h.1 (by decide)
  refine ⟨hs, ?_, ?_⟩
  · exact ((apply_answer_exact hs _).2 (by decide)).mpr hidle
  · exact mt ((apply_answer_exact hs _).2 (by decide)).mp hbusy

end Editor

end GraphBoard
