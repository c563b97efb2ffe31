import GraphBoard.Proofs.Session.Release

/-!
# GraphBoard.Proofs.Session.Drop

Dropping a node where it has been dragged to.  Up to the release the node is drawn where the drag
says, and from then on where the graph says.

* `Graph.moveNode?_eq_put` — the graph is the old one with the node of that key at another point;
* `View.displayPoint_put` — so the nodes are drawn where they have been during the drag;
* `draw_put` — the picture shows nothing else of where the nodes are stored;
* `release_drag` — so it stays as it is when the node is dropped.
-/

namespace GraphBoard

variable {α : Type}

/-! ## A node at another point -/

/-- A node, at a point if it has a key. -/
def Node.put (k : NodeKey) (spot : Point α) (n : Node α) : Node α :=
  { n with position := if n.key = k then spot else n.position }

namespace Graph

variable {g : Graph α}

/-- A graph with the node of a key at a point. -/
def put (g : Graph α) (k : NodeKey) (spot : Point α) : Graph α :=
  { g with nodes := g.nodes.map (Node.put k spot) }

/-- A node keeps its key where it is put. -/
theorem keys_put (g : Graph α) (k : NodeKey) (spot : Point α) : (g.put k spot).keys = g.keys := by
  rw [keys, keys, put, List.map_map]
  rfl

/-- To look a node up that was put somewhere is to put it there when it is found. -/
theorem node?_put (g : Graph α) (k : NodeKey) (spot : Point α) (l : NodeKey) :
    (g.put k spot).node? l = (g.node? l).map (Node.put k spot) := by
  rw [node?, node?, put, List.find?_map]
  rfl

/-- A move puts the node of the key at the point. -/
theorem moveNode?_eq_put (hg : g.Valid) {k : NodeKey} (hk : k ∈ g.keys) (spot : Point α) :
    g.moveNode? k spot = some (g.put k spot) := by
  obtain ⟨m, hm, hmk⟩ := mem_keys.mp hk
  obtain ⟨xs, n, ys, hfirst⟩ :=
    exists_firstMatch (p := fun n : Node α => n.key == k) hm (by simpa using hmk)
  have hn : n.key = k := by simpa using hfirst.passes
  have hother : ∀ l ∈ xs ++ ys, l.put k spot = l := by
    -- the key is that of one node only, so the others keep their places
    have hnodup := hg.keys_nodup
    rw [keys, hfirst.split, List.map_append, List.map_cons, List.nodup_middle, ← List.map_append,
      List.nodup_cons, hn] at hnodup
    intro l hl
    have hne : l.key ≠ k := fun he => hnodup.1 (List.mem_map.mpr ⟨l, hl, he⟩)
    rw [Node.put, if_neg hne]
  have hxs : xs.map (Node.put k spot) = xs := by
    simpa using List.map_congr_left fun l hl => hother l (List.mem_append_left ys hl)
  have hys : ys.map (Node.put k spot) = ys := by
    simpa using List.map_congr_left fun l hl => hother l (List.mem_append_right xs hl)
  refine moveNode?_eq_some_iff.mpr ⟨xs, n, ys, hfirst, ?_⟩
  rw [put, hfirst.split, List.map_append, List.map_cons, hxs, hys, Node.put, if_pos hn]

end Graph

variable [Scalar α]

/-- The stored layout shows every node where it is. -/
theorem Layout.get?_stored (g : Graph α) (k : NodeKey) :
    (Layout.stored.positions g).get? k = (g.node? k).map Node.position := by
  rw [positions, Positions.get?, Graph.node?]
  induction g.nodes with
  | nil => rfl
  | cons n ns ih =>
      rw [List.map_cons, List.lookup_cons, List.find?_cons]
      by_cases h : n.key = k
      · simp [h]
      · rw [beq_false_of_ne h, beq_false_of_ne (Ne.symm h)]
        exact ih

namespace View

/-- A drag of a node that has become a movement, with no edge being drawn. -/
structure Drags (v : View α) (k : NodeKey) : Prop where
  active : v.drag.active = true
  moved : v.drag.moved = true
  node : v.drag.node = some k
  draft : v.draft = none

variable {v : View α} {g : Graph α} {k : NodeKey}

omit [Scalar α] in
/-- A node that is dragged is drawn at the pointer, every other one where the layout puts it. -/
theorem Drags.displayPoint (h : v.Drags k) (p : Positions α) (l : NodeKey) :
    v.displayPoint p l = if l = k then some v.drag.current else p.get? l := by
  rw [View.displayPoint, h.moved, h.node]
  by_cases hl : l = k
  · simp [hl]
  · simp [hl, Ne.symm hl]

/-- When the drag is over and the node is stored where it was led, every node is drawn where it was
drawn during the drag. -/
theorem displayPoint_put (h : v.Drags k) (hk : k ∈ g.keys) (l : NodeKey) :
    v.endGestures.displayPoint (Layout.stored.positions (g.put k v.drag.current)) l =
      v.displayPoint (Layout.stored.positions g) l := by
  have hidle : v.endGestures.displayPoint (Layout.stored.positions (g.put k v.drag.current)) l =
      (Layout.stored.positions (g.put k v.drag.current)).get? l := rfl
  rw [hidle, Layout.get?_stored, Graph.node?_put, h.displayPoint, Layout.get?_stored,
    Option.map_map]
  cases hn : g.node? l with
  | none =>
      have hl : l ≠ k := fun he => by
        have hthere := Graph.node?_isSome_iff.mpr (he ▸ hk)
        rw [hn] at hthere
        contradiction
      rw [if_neg hl]
      rfl
  | some n =>
      have hkey : n.key = l := by simpa using List.find?_some hn
      simp only [Option.map_some, Function.comp_apply, Node.put, hkey]
      split <;> rfl

end View

/-! ## The picture -/

namespace Drawing

variable {v w : View α} {p q : Positions α}

/-- The nodes are drawn alike if they are drawn in the same places, wherever one of them is stored.
-/
theorem nodes_put (hw : ∀ k, w.displayPoint q k = v.displayPoint p k)
    (hk : w.transform = v.transform) (hhover : w.hover = v.hover) (s : Selection)
    (gradients : Bool) (k : NodeKey) (spot : Point α) (made : Nat) (ns : List (Node α)) :
    nodes w s q gradients made (ns.map (Node.put k spot)) = nodes v s p gradients made ns := by
  induction ns generalizing made with
  | nil => rfl
  | cons n ns ih =>
      have hplace : w.displayPoint q (n.put k spot).key = v.displayPoint p n.key := hw n.key
      have hglows : glows w s (n.put k spot) = glows v s n := by
        rw [glows, glows, hhover]
        rfl
      have hnode (gradient : Option Nat) (c : Point α) :
          node w s gradient (n.put k spot) c = node v s gradient n c := by
        rw [node, node, hhover, hk]
        rfl
      rw [List.map_cons, nodes, nodes, hplace]
      cases v.displayPoint p n.key with
      | none => exact ih made
      | some c =>
          simp only []
          rw [hnode, hglows, ih]

/-- An edge is drawn alike if the nodes are drawn in the same places. -/
theorem edge_put {g : Graph α} (hw : ∀ k, w.displayPoint q k = v.displayPoint p k)
    (hk : w.transform = v.transform) (htime : w.flowTime = v.flowTime) (s : Selection)
    (k : NodeKey) (spot : Point α) (e : Edge) :
    edge w (g.put k spot) s q e = edge v g s p e := by
  have hstyle : EdgeStyle.ofView w = EdgeStyle.ofView v := by
    rw [EdgeStyle.ofView, EdgeStyle.ofView, hk, htime]
  have harrow (start tip : Point α) : arrow w s e start tip = arrow v s e start tip := by
    rw [arrow, arrow, hstyle, hk]
  rw [edge, edge, hw, hw, Graph.node?_put, Graph.node?_put]
  match v.displayPoint p e.source, v.displayPoint p e.target, g.node? e.source,
    g.node? e.target with
  | none, _, _, _ => rfl
  | some _, none, _, _ => rfl
  | some _, some _, none, _ => rfl
  | some _, some _, some _, none => rfl
  | some _, some _, some _, some _ => exact harrow _ _

end Drawing

open Drawing in
/-- What is drawn of a node is drawn where the node is displayed, wherever it is stored. -/
theorem draw_put {v : View α} {e : Editor α} {k : NodeKey} (h : v.Drags k)
    (hk : k ∈ e.graph.keys) (gradients : Bool) :
    let after := { e with graph := e.graph.put k v.drag.current }
    v.endGestures.draw after (Layout.stored.positions after.graph) .stored gradients =
      v.draw e (Layout.stored.positions e.graph) .stored gradients := by
  intro after
  have hplaces := View.displayPoint_put h hk
  have hedges : edges v.endGestures after.graph e.selection (Layout.stored.positions after.graph) =
      edges v e.graph e.selection (Layout.stored.positions e.graph) :=
    congrArg (e.graph.edges.flatMap ·) (funext fun f => edge_put hplaces rfl rfl _ _ _ f)
  have hnodes := nodes_put hplaces rfl rfl e.selection gradients k v.drag.current 0 e.graph.nodes
  have hcontents : contents v.endGestures after (Layout.stored.positions after.graph) gradients =
      contents v e (Layout.stored.positions e.graph) gradients := by
    rw [contents, contents, draft, draft, h.draft, ← hedges, ← hnodes]
    rfl
  rw [View.draw, View.draw, hcontents]
  rfl

/-! ## The release -/

namespace Session

/-- Two states of a board that look the same, and whose graphs differ only in where the nodes are
stored. -/
structure LooksAlike (s s' : Session α) (v w : View α) : Prop where
  /-- Every node is drawn where it was. -/
  displayPoint_eq : ∀ k, w.displayPoint s'.positions k = v.displayPoint s.positions k
  /-- The nodes and their order stay. -/
  keys_eq : s'.editor.graph.keys = s.editor.graph.keys
  /-- The edges and their order stay. -/
  edges_eq : s'.editor.graph.edges = s.editor.graph.edges
  /-- The same items are chosen. -/
  selection_eq : s'.editor.selection = s.editor.selection
  /-- The picture stays. -/
  draw_eq : ∀ gradients, w.draw s'.editor s'.positions s'.layout gradients =
    v.draw s.editor s.positions s.layout gradients

/-- A node that is dragged and then dropped stays where it is displayed, and so does everything
else, if the nodes are drawn where they are stored. -/
theorem release_drag {s : Session α} {v : View α} {k : NodeKey} (hs : s.editor.graph.Valid)
    (hlayout : s.layout = .stored) (hview : s.view = some v) (hdrag : v.Drags k)
    (hk : k ∈ s.editor.graph.keys) (client : Point α) :
    (s.handle (.release client)).2.event = some (.updateNode k v.drag.current, true) ∧
      v.displayPoint s.positions k = some v.drag.current ∧
      ∃ w, (s.handle (.release client)).1.view = some w ∧
        LooksAlike s (s.handle (.release client)).1 v w := by
  have hevent : v.releaseEvent s.editor.graph s.positions (s.page.canvasPoint? client) =
      some (.updateNode k v.drag.current) := by
    rw [View.releaseEvent, hdrag.draft, hdrag.active, hdrag.moved, hdrag.node]
    rfl
  have happly : s.editor.apply (.updateNode k v.drag.current) =
      ({ s.editor with graph := s.editor.graph.put k v.drag.current }, true) := by
    rw [Editor.apply, Graph.moveNode?_eq_put hs hk]
  have hafter : s.handle (.release client) =
      ({ s with
          view := some v.endGestures
          editor := { s.editor with graph := s.editor.graph.put k v.drag.current } },
        { event := some (.updateNode k v.drag.current, true) }) := by
    simp only [handle, release, hview, View.release, hevent, report, happly]
  rw [hafter]
  refine ⟨rfl, by rw [hdrag.displayPoint, if_pos rfl], v.endGestures, rfl, ?_⟩
  refine ⟨fun l => ?_, Graph.keys_put _ _ _, rfl, rfl, fun gradients => ?_⟩
  · rw [positions, positions, hlayout]
    exact View.displayPoint_put hdrag hk l
  · rw [positions, positions, hlayout]
    exact draw_put hdrag hk gradients

/-- The right one of two nodes has been dragged down and to the left. -/
def dragging : Session Float :=
  pair.run [.press ⟨600.0, 150.0⟩ false false, .move ⟨590.0, 250.0⟩]

/-- The view while that node is dragged. -/
def draggingView : View Float :=
  { pairView with
    drag := ⟨true, some "b", true, ⟨600.0, 150.0⟩, ⟨200.0, 0.0⟩, ⟨190.0, 100.0⟩⟩
    pointer := ⟨190.0, 100.0⟩ }

/-- The node that is dragged down and to the left is stored there when it is released, and the
picture stays. -/
theorem release_drag_dragging :
    dragging.editor.graph.Valid ∧ dragging.layout = .stored ∧
      dragging.view = some draggingView ∧ draggingView.Drags "b" ∧
      "b" ∈ dragging.editor.graph.keys ∧
      (dragging.handle (.release ⟨590.0, 250.0⟩)).2.event =
        some (.updateNode "b" ⟨190.0, 100.0⟩, true) ∧
      draggingView.displayPoint dragging.positions "b" = some ⟨190.0, 100.0⟩ ∧
      ∃ w, (dragging.handle (.release ⟨590.0, 250.0⟩)).1.view = some w ∧
        LooksAlike dragging (dragging.handle (.release ⟨590.0, 250.0⟩)).1 draggingView w := by
  have hpair : pair.editor.graph.Valid := by
    rw [pair, editor_start]
    exact valid_pairGraph
  have hvalid : dragging.editor.graph.Valid := by
    rw [dragging]
    exact valid_run hpair (by simp [Input.Valid])
  have hlayout : dragging.layout = .stored := by decide +kernel
  have hview : dragging.view = some draggingView := by decide +kernel
  have hdrag : draggingView.Drags "b" := ⟨rfl, rfl, rfl, rfl⟩
  have hk : "b" ∈ dragging.editor.graph.keys := by decide +kernel
  exact ⟨hvalid, hlayout, hview, hdrag, hk,
    release_drag hvalid hlayout hview hdrag hk ⟨590.0, 250.0⟩⟩

end Session

end GraphBoard
