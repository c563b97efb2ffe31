import GraphBoard.Drawing.Figure
import GraphBoard.Proofs.Drawing.Frame
import GraphBoard.Proofs.Graph.Valid

/-!
# GraphBoard.Proofs.Drawing.Whole

A picture shows the whole board, figure by figure.

* `draws_edges`, `draws_nodes` — the figures of the edges that have lines and of the nodes that have
  places, one after the other, with those of an edge being drawn between them (`draws_contents`);
* `nodes_split` — the calls that draw the main shape of a node, between those of what is below it
  and those of what is above;
* `draws_grid` — the figures of the grid are one path along all its lines, or none;
* `map_edge_lines` — on a valid board every edge has a line, as every node has a place
  (`map_fst_drawn_nodes`);
* `exists_paints`, `draw_whole` — so a picture is the grid, each edge once, the edge being drawn, and
  each node once, in this order and in the order of the board.
-/

namespace GraphBoard.Drawing

variable {α : Type}

/-! ## Edges -/

/-- An edge with the two points between which it is drawn. -/
structure Line (α : Type) where
  /-- The edge. -/
  edge : Edge
  /-- Where it leaves the outline of its source. -/
  start : Point α
  /-- Where it meets the outline of its target. -/
  tip : Point α

variable [Scalar α]

namespace Line

/-- How long a line is. -/
def length (x : Line α) : α :=
  let dx := x.tip.x - x.start.x
  let dy := x.tip.y - x.start.y
  Scalar.sqrt (dx * dx + dy * dy)

/-- The step of length one from the start towards the tip. -/
def direction (x : Line α) : Point α :=
  ⟨(x.tip.x - x.start.x) / x.length, (x.tip.y - x.start.y) / x.length⟩

/-- The shaft, from the start to the base of the arrowhead. -/
def shaft (v : View α) (x : Line α) : List (Call α) :=
  let size := 8.0 / v.transform.k
  [.moveTo x.start, .lineTo ⟨x.tip.x - x.direction.x * size, x.tip.y - x.direction.y * size⟩,
    .stroke]

/-- The arrowhead, a triangle that ends in the tip. -/
def head (v : View α) (x : Line α) : List (Call α) :=
  let size := 8.0 / v.transform.k
  let base : Point α := ⟨x.tip.x - x.direction.x * size, x.tip.y - x.direction.y * size⟩
  let across : Point α := ⟨-x.direction.y * size * 0.5, x.direction.x * size * 0.5⟩
  [.moveTo x.tip, .lineTo ⟨base.x + across.x, base.y + across.y⟩,
    .lineTo ⟨base.x - across.x, base.y - across.y⟩, .closePath, .fill]

/-- The handle, a disc about the tip. -/
def knob (v : View α) (x : Line α) : List (Call α) :=
  [.arc x.tip (handleRadius / v.transform.k) 0.0 (2.0 * Scalar.pi), .fill, .stroke]

/-- The figures of an edge. -/
def figures (v : View α) (s : Selection) (x : Line α) : List (List (Call α)) :=
  if x.length < 0.001 then []
  else [x.shaft v, x.head v] ++ if s.singleEdge? = some x.edge.key then [x.knob v] else []

end Line

section Edges

variable {v : View α} {g : Graph α} {s : Selection} {p : Positions α}

/-- The line of an edge, if the nodes at its ends have places. -/
def line? (v : View α) (g : Graph α) (p : Positions α) (e : Edge) : Option (Line α) := do
  let a ← v.displayPoint p e.source
  let b ← v.displayPoint p e.target
  let source ← g.node? e.source
  let target ← g.node? e.target
  return ⟨e, boundaryPoint a b source.kind, boundaryPoint b a target.kind⟩

/-- The lines of the edges whose ends have places. -/
def lines (v : View α) (g : Graph α) (p : Positions α) : List (Line α) :=
  g.edges.filterMap (line? v g p)

/-- The handle is drawn of the edge that is chosen alone. -/
theorem draws_handle (e : Edge) (start tip : Point α) :
    Draws
      (if s.hasEdge e.key && s.singleEdge? == some e.key then
        handle tip v.transform.k (EdgeStyle.ofView v).lineWidth else [])
      (if s.singleEdge? = some e.key then [Line.knob v ⟨e, start, tip⟩] else []) := by
  by_cases hsingle : s.singleEdge? = some e.key
  · have hchosen : s.hasEdge e.key = true := by
      rw [Selection.singleEdge?_eq_some_iff.mp hsingle]
      simp [Selection.ofEdge]
    have hboth : (s.hasEdge e.key && s.singleEdge? == some e.key) = true := by
      simp [hchosen, hsingle]
    rw [if_pos hboth, if_pos hsingle]
    rfl
  · have hneither : ¬ (s.hasEdge e.key && s.singleEdge? == some e.key) = true := by
      simp [hsingle]
    rw [if_neg hneither, if_neg hsingle]
    exact .nil

/-- An arrow draws the figures of its line. -/
theorem draws_arrow (e : Edge) (start tip : Point α) :
    Draws (arrow v s e start tip) (Line.figures v s ⟨e, start, tip⟩) := by
  by_cases hnear : Line.length ⟨e, start, tip⟩ < 0.001
  · have harrow : arrow v s e start tip = [] := if_pos hnear
    rw [harrow, Line.figures, if_pos hnear]
    exact .nil
  · rw [show arrow v s e start tip = _ from if_neg hnear, Line.figures, if_neg hnear]
    have hdashes : Draws (dashes (EdgeStyle.ofView v) e.kind) [] := by cases e.kind <;> rfl
    change Draws _ ([] ++ [] ++ [Line.shaft v ⟨e, start, tip⟩] ++
      [Line.head v ⟨e, start, tip⟩] ++ _)
    refine .append (.append (.append (.append ?_ hdashes) ?_) ?_) (draws_handle e start tip)
    all_goals rfl

/-- An edge is drawn along its line, if it has one. -/
theorem edge_eq (e : Edge) :
    edge v g s p e = (line? v g p e).toList.flatMap fun x => arrow v s e x.start x.tip := by
  rw [edge, line?]
  rcases v.displayPoint p e.source with _ | a <;> rcases v.displayPoint p e.target with _ | b <;>
    rcases g.node? e.source with _ | source <;> rcases g.node? e.target with _ | target <;>
    first | rfl | exact (List.append_nil _).symm

/-- A line goes from the outline of one node to that of another, where they are drawn. -/
def Line.Joins (v : View α) (g : Graph α) (p : Positions α) (x : Line α) : Prop :=
  ∃ a b source target, v.displayPoint p x.edge.source = some a ∧
    v.displayPoint p x.edge.target = some b ∧ g.node? x.edge.source = some source ∧
    g.node? x.edge.target = some target ∧ x.start = boundaryPoint a b source.kind ∧
    x.tip = boundaryPoint b a target.kind

/-- The line of an edge joins the nodes at its ends. -/
theorem joins_of_line? {e : Edge} {x : Line α} (h : line? v g p e = some x) :
    x.edge = e ∧ x.Joins v g p := by
  simp only [line?, Option.bind_eq_bind, Option.bind_eq_some_iff] at h
  obtain ⟨a, ha, b, hb, source, hsource, target, htarget, hx⟩ := h
  cases hx
  exact ⟨rfl, a, b, source, target, ha, hb, hsource, htarget, rfl, rfl⟩

/-- The lines that are drawn go from outline to outline. -/
theorem joins_of_mem_lines {x : Line α} (h : x ∈ lines v g p) : x.Joins v g p := by
  obtain ⟨e, -, hline⟩ := List.mem_filterMap.mp h
  exact (joins_of_line? hline).2

/-- The edges that have lines are drawn one after the other. -/
theorem draws_edges (v : View α) (g : Graph α) (s : Selection) (p : Positions α) :
    Draws (edges v g s p) ((lines v g p).flatMap (Line.figures v s)) := by
  have hlines : lines v g p = g.edges.flatMap fun e => (line? v g p e).toList :=
    List.filterMap_eq_flatMap_toList _ _
  rw [hlines, List.flatMap_assoc]
  refine .flatMap (fun e => ?_) g.edges
  rw [edge_eq]
  cases hline : line? v g p e with
  | none => exact .nil
  | some x =>
      obtain ⟨rfl, -⟩ := joins_of_line? hline
      exact .append (draws_arrow x.edge x.start x.tip) .nil

/-- The end of a line is where the handle of its edge is. -/
theorem Line.Joins.edgeHandle? {x : Line α} (h : x.Joins v g p) :
    v.edgeHandle? g p x.edge.key = some x.tip := by
  obtain ⟨a, b, source, target, ha, hb, -, htarget, -, htip⟩ := h
  have hsource : v.displayPoint p x.edge.key.source = some a := ha
  have hend : v.displayPoint p x.edge.key.target = some b := hb
  have hnode : g.node? x.edge.key.target = some target := htarget
  rw [View.edgeHandle?, hsource, hend, hnode, htip]
  rfl

/-- On a valid board every edge has a line. -/
theorem map_edge_lines (hg : g.Valid) (v : View α) (l : Layout) :
    (lines v g (l.positions g)).map Line.edge = g.edges := by
  rw [lines, List.map_filterMap]
  refine (List.filterMap_congr fun e he => ?_).trans List.filterMap_some
  have hs := hg.source_mem e he
  have ht := hg.target_mem e he
  obtain ⟨a, ha⟩ := exists_displayPoint hg v l hs
  obtain ⟨b, hb⟩ := exists_displayPoint hg v l ht
  obtain ⟨source, hsource⟩ := Option.isSome_iff_exists.mp (Graph.node?_isSome_iff.mpr hs)
  obtain ⟨target, htarget⟩ := Option.isSome_iff_exists.mp (Graph.node?_isSome_iff.mpr ht)
  rw [line?, ha, hb, hsource, htarget]
  rfl

end Edges

/-! ## The edge being drawn -/

/-- The figure of an edge being drawn, if the node it leaves has a place. -/
def draftFigures (v : View α) (p : Positions α) : List (List (Call α)) :=
  match v.draft with
  | none => []
  | some d =>
    match v.displayPoint p d.source with
    | none => []
    | some start => [[.moveTo start, .lineTo d.cursor, .stroke]]

/-- An edge being drawn has one figure, if the node it leaves has a place. -/
theorem draws_draft (v : View α) (p : Positions α) : Draws (draft v p) (draftFigures v p) := by
  rw [draft, draftFigures]
  cases v.draft with
  | none => exact .nil
  | some d =>
      simp only []
      cases v.displayPoint p d.source with
      | none => exact .nil
      | some start => rfl

/-! ## Nodes -/

section Nodes

/-- The path of the main shape of a node about a point: a diamond, a box, a hexagon, or a circle. -/
def mainPath (x : Node α × Point α) : List (Call α) :=
  let c := x.2
  let e : HalfExtent α := x.1.kind.halfExtent
  let corner (i : Nat) : Point α :=
    ⟨c.x + e.width * Scalar.cos (Scalar.pi / 3.0 * Scalar.ofNat i),
      c.y + e.height * Scalar.sin (Scalar.pi / 3.0 * Scalar.ofNat i)⟩
  match x.1.kind with
  | .special =>
    [.moveTo ⟨c.x, c.y - e.height⟩, .lineTo ⟨c.x + e.width, c.y⟩, .lineTo ⟨c.x, c.y + e.height⟩,
      .lineTo ⟨c.x - e.width, c.y⟩, .closePath]
  | .skinny => [.rect ⟨c.x - e.width, c.y - e.height⟩ (e.width * 2.0) (e.height * 2.0)]
  | .poly =>
    [.moveTo (corner 0), .lineTo (corner 1), .lineTo (corner 2), .lineTo (corner 3),
      .lineTo (corner 4), .lineTo (corner 5), .closePath]
  | .empty | .complexCircle => [.arc c e.width 0.0 (2.0 * Scalar.pi)]

/-- The figure of the main shape of a node about a point: the path, filled and then drawn along. -/
def mainFigure (x : Node α × Point α) : List (Call α) := mainPath x ++ [.fill, .stroke]

/-- The calls that draw the main shape of a node about a point: the path, filled with the colour of
the kind, and drawn along in the colour and the width for what is chosen and what is not. -/
def mainCalls (v : View α) (s : Selection) (x : Node α × Point α) : List (Call α) :=
  .beginPath :: mainPath x ++
    [.fillStyle (.color (kindColor x.1.kind)), .fill,
      .strokeStyle (if s.hasNode x.1.key then Color.selected else Color.outline),
      .lineWidth (if s.hasNode x.1.key then 3.0 / v.transform.k else 1.0 / v.transform.k), .stroke]

/-- The figures behind the main shape: the glow, if there are gradients to fill it with, and the
underlay. -/
def backFigures (v : View α) (s : Selection) (gradients : Bool) (x : Node α × Point α) :
    List (List (Call α)) :=
  let extent : HalfExtent α := x.1.kind.halfExtent
  (if gradients && (v.hover == some x.1.key || s.hasNode x.1.key) then
    [[.arc x.2 (Scalar.max extent.width extent.height * 1.6) 0.0 (2.0 * Scalar.pi), .fill]]
    else []) ++
  match x.1.underlay with
  | none => []
  | some .specialChild => [[.arc x.2 (nodeRadius * 1.45) 0.0 (2.0 * Scalar.pi), .fill]]

/-- The figure before the main shape: the ring inside a circle. -/
def frontFigures (x : Node α × Point α) : List (List (Call α)) :=
  match x.1.kind with
  | .complexCircle => [[.arc x.2 (nodeRadius * 0.6) 0.0 (2.0 * Scalar.pi), .stroke]]
  | _ => []

/-- The figures of a node. -/
def nodeFigures (v : View α) (s : Selection) (gradients : Bool) (x : Node α × Point α) :
    List (List (Call α)) :=
  backFigures v s gradients x ++ [mainFigure x] ++ frontFigures x

variable {v : View α} {s : Selection} {p : Positions α} {gradients : Bool}

/-- Behind the main shape there are the glow and the underlay. -/
theorem draws_behind (made : Nat) (n : Node α) (c : Point α) :
    Draws (behind v s (if gradients then some made else none) n c)
      (backFigures v s gradients (n, c)) := by
  refine .append ?_ ?_
  · have hglows : glows v s n = (v.hover == some n.key || s.hasNode n.key) := rfl
    cases gradients <;> cases hg : glows v s n <;> simp only [← hglows, hg] <;> rfl
  · rcases n.underlay with _ | ⟨⟨⟩⟩ <;> rfl

/-- The main shape of a node is drawn by these calls. -/
theorem shape_eq (n : Node α) (c : Point α) :
    shape c n.kind (s.hasNode n.key) v.transform.k = mainCalls v s (n, c) := by
  rw [mainCalls, mainPath, shape]
  cases n.kind <;> rfl

/-- These calls draw the figure of the main shape. -/
theorem draws_mainCalls (x : Node α × Point α) : Draws (mainCalls v s x) [mainFigure x] := by
  rw [mainCalls, mainFigure, mainPath]
  cases x.1.kind <;> rfl

/-- In front of the main shape there is the ring. -/
theorem draws_inFront (n : Node α) (c : Point α) :
    Draws (inFront v n c) (frontFigures (n, c)) := by
  have hring : Draws (ring c n.kind v.transform.k) (frontFigures (n, c)) := by
    rw [frontFigures]
    cases n.kind <;> rfl
  have htitle : Draws (title c n.kind n.title v.transform.k) [] := by
    rw [title]
    split
    · exact .nil
    · cases n.kind <;> rfl
  have hboth := hring.append htitle
  rwa [List.append_nil] at hboth

/-- The figures of a node are drawn by its calls. -/
theorem draws_node (made : Nat) (n : Node α) (c : Point α) :
    Draws (node v s (if gradients then some made else none) n c)
      (nodeFigures v s gradients (n, c)) := by
  rw [node_eq, shape_eq]
  exact .append (.append (draws_behind made n c) (draws_mainCalls (n, c))) (draws_inFront n c)

/-- The nodes that have places are drawn one after the other. -/
theorem draws_nodes (v : View α) (s : Selection) (p : Positions α) (gradients : Bool) (made : Nat)
    (ns : List (Node α)) :
    Draws (nodes v s p gradients made ns)
      ((drawn v p ns).flatMap (nodeFigures v s gradients)) := by
  induction ns generalizing made with
  | nil => exact .nil
  | cons n ns ih =>
      rw [nodes, drawn, List.filterMap_cons]
      cases v.displayPoint p n.key with
      | none => exact ih made
      | some c => exact .append (draws_node made n c) (ih _)

/-- Where the main shape of a node is drawn: after all that is drawn of the nodes below it, and
before all that is drawn of those above. -/
theorem nodes_split (v : View α) (s : Selection) (gradients : Bool) (made : Nat)
    {ns : List (Node α)} {below above : List (Node α × Point α)}
    {x : Node α × Point α} (h : drawn v p ns = below ++ x :: above) :
    ∃ earlier later, nodes v s p gradients made ns = earlier ++ mainCalls v s x ++ later ∧
      Draws earlier (below.flatMap (nodeFigures v s gradients) ++ backFigures v s gradients x) ∧
      Draws later (frontFigures x ++ above.flatMap (nodeFigures v s gradients)) := by
  -- the nodes without a place draw nothing; the first with one is the node, or is below it
  induction ns generalizing made below with
  | nil => simp [drawn] at h
  | cons n ns ih =>
      rw [drawn, List.filterMap_cons] at h
      rw [nodes]
      cases hplace : v.displayPoint p n.key with
      | none =>
          rw [hplace] at h
          exact ih made h
      | some c =>
          rw [hplace] at h
          let made' := if gradients && glows v s n then made + 1 else made
          obtain ⟨rfl, hx⟩ | ⟨below, rfl, hrest⟩ := List.cons_eq_append_iff.mp h
          · obtain ⟨rfl, rfl⟩ := List.cons.inj hx
            refine ⟨behind v s (if gradients then some made else none) n c,
              inFront v n c ++ nodes v s p gradients made' ns, ?_, draws_behind made n c,
              (draws_inFront n c).append (draws_nodes v s p gradients made' ns)⟩
            simp only [node_eq, shape_eq, List.append_assoc, made']
          · obtain ⟨earlier, later, hcalls, hearlier, hlater⟩ := ih made' hrest
            refine ⟨node v s (if gradients then some made else none) n c ++ earlier, later, ?_, ?_,
              hlater⟩
            · simp only [made'] at hcalls
              simp only [hcalls, List.append_assoc]
            · rw [List.flatMap_cons, List.append_assoc]
              exact (draws_node made n c).append hearlier

end Nodes

/-! ## The picture -/

/-- The figures of the grid: none if there is no grid or if it would be too dense, and otherwise one
path along all its lines, which is drawn along and not filled. -/
inductive Ground (v : View α) (l : Layout) : List (List (Call α)) → Prop where
  /-- There is nothing to draw. -/
  | bare (h : l = .snapToGrid → Grid.Crowded v) : Ground v l []
  /-- The lines from above to below come first. -/
  | lined {xs ys : List α} (hlayout : l = .snapToGrid) (hfits : ¬ Grid.Crowded v)
      (hxs : Grid.lines (v.toGraph .origin).x (v.toGraph ⟨v.width, v.height⟩).x = some xs)
      (hys : Grid.lines (v.toGraph .origin).y (v.toGraph ⟨v.width, v.height⟩).y = some ys) :
      Ground v l
        [(xs.flatMap fun x => [.moveTo ⟨x, (v.toGraph .origin).y⟩,
            .lineTo ⟨x, (v.toGraph ⟨v.width, v.height⟩).y⟩]) ++
          (ys.flatMap fun y => [.moveTo ⟨(v.toGraph .origin).x, y⟩,
            .lineTo ⟨(v.toGraph ⟨v.width, v.height⟩).x, y⟩]) ++ [.stroke]]

omit [Scalar α] in
/-- Lines across the view, and drawing along them, are done with the path. -/
theorem onPath_of_mem_lines (start stop : Point α) (xs ys : List α) :
    ∀ c ∈ xs.flatMap (Grid.vertical start stop) ++ ys.flatMap (Grid.horizontal start stop) ++
      [.stroke], c.onPath = true := by
  simp only [List.forall_mem_append, List.forall_mem_flatMap]
  simp [Grid.vertical, Grid.horizontal, Call.onPath]

/-- The figures of a grid are drawn by its calls. -/
theorem draws_grid {v : View α} {l : Layout} {grid : List (Call α)} (h : grid? v l = some grid) :
    ∃ ground, Ground v l ground ∧ Draws grid ground := by
  obtain ⟨hbare, rfl⟩ | ⟨xs, ys, ⟨hlayout, hfits, hxs, hys⟩, rfl⟩ := eq_nil_or_lines_of_grid? h
  · exact ⟨[], .bare hbare, .nil⟩
  · exact ⟨_, .lined hlayout hfits hxs hys, Draws.path (onPath_of_mem_lines _ _ xs ys)⟩

/-- The figures of the items of a board: the edges along their lines, the edge being drawn, and the
nodes about their places. -/
def itemFigures (v : View α) (e : Editor α) (p : Positions α) (gradients : Bool)
    (lines : List (Line α)) (places : List (Node α × Point α)) : List (List (Call α)) :=
  lines.flatMap (Line.figures v e.selection) ++ draftFigures v p ++
    places.flatMap (nodeFigures v e.selection gradients)

/-- The items of a board draw its figures. -/
theorem draws_contents (v : View α) (e : Editor α) (p : Positions α) (gradients : Bool) :
    Draws (contents v e p gradients)
      (itemFigures v e p gradients (lines v e.graph p) (drawn v p e.graph.nodes)) :=
  ((draws_edges v e.graph e.selection p).append (draws_draft v p)).append
    (draws_nodes v e.selection p gradients 0 e.graph.nodes)

/-- There is a picture exactly if the grid, where there is one, comes to an end. -/
theorem isSome_draw_iff (v : View α) (e : Editor α) (p : Positions α) (l : Layout)
    (gradients : Bool) :
    (v.draw e p l gradients).isSome ↔ (l = .snapToGrid → (Grid.draw v).isSome) := by
  rw [View.draw, Option.isSome_map]
  cases l <;> simp [grid?]

/-- A picture draws the figures of the grid and then those of the items, and the main shape of each
node is drawn by its calls after the figures of all that is below it and before those of all that is
above. -/
structure Paints (v : View α) (e : Editor α) (p : Positions α) (gradients : Bool)
    (ground : List (List (Call α))) (lines : List (Line α)) (places : List (Node α × Point α))
    (picture : List (Call α)) : Prop where
  /-- All figures. -/
  draws : Draws picture (ground ++ itemFigures v e p gradients lines places)
  /-- The calls of a main shape, and what comes before and after them. -/
  main_split : ∀ below x above, places = below ++ x :: above →
    ∃ earlier later, picture = earlier ++ mainCalls v e.selection x ++ later ∧
      Draws earlier (ground ++ itemFigures v e p gradients lines below ++
        backFigures v e.selection gradients x) ∧
      Draws later (frontFigures x ++ above.flatMap (nodeFigures v e.selection gradients))

/-- A picture paints the figures of a grid, the lines of the edges, and the nodes that have places.
-/
theorem exists_paints {v : View α} {e : Editor α} {p : Positions α} {l : Layout}
    {gradients : Bool} {picture : List (Call α)} (h : v.draw e p l gradients = some picture) :
    ∃ ground, Ground v l ground ∧
      Paints v e p gradients ground (lines v e.graph p) (drawn v p e.graph.nodes) picture := by
  obtain ⟨grid, hgrid, rfl⟩ := Option.map_eq_some_iff.mp h
  obtain ⟨ground, hground, hlines⟩ := draws_grid hgrid
  have hopening : Draws (opening v) [] := rfl
  have hclosing : Draws ([.restore] : List (Call α)) [] := rfl
  have hedges := draws_edges v e.graph e.selection p
  have hbefore : Draws (opening v ++ grid ++ (edges v e.graph e.selection p ++ draft v p))
      (ground ++ ((lines v e.graph p).flatMap (Line.figures v e.selection) ++ draftFigures v p)) :=
    (hopening.append hlines).append (hedges.append (draws_draft v p))
  refine ⟨ground, hground, ?_, fun below x above hsplit => ?_⟩
  · have hall := ((hopening.append hlines).append (draws_contents v e p gradients)).append hclosing
    rwa [List.nil_append, List.append_nil] at hall
  · obtain ⟨earlier, later, hcalls, hearlier, hlater⟩ :=
      nodes_split v e.selection gradients 0 hsplit
    refine ⟨opening v ++ grid ++ (edges v e.graph e.selection p ++ draft v p) ++ earlier,
      later ++ [.restore], ?_, ?_, ?_⟩
    · simp only [contents, hcalls, List.append_assoc]
    · have hall := hbefore.append hearlier
      simpa only [itemFigures, List.append_assoc] using hall
    · have hall := hlater.append hclosing
      rwa [List.append_nil] at hall

/-- The whole board is drawn, figure by figure, and in a picture it is drawn over the grid.  There
is a picture exactly if the grid, where there is one, comes to an end. -/
structure ShowsWhole (v : View α) (e : Editor α) (l : Layout) (gradients : Bool)
    (lines : List (Line α)) (places : List (Node α × Point α)) : Prop where
  /-- Every edge has a line, in the order of the edges. -/
  edges_eq : lines.map Line.edge = e.graph.edges
  /-- The lines go from outline to outline. -/
  joins : ∀ x ∈ lines, x.Joins v e.graph (l.positions e.graph)
  /-- Lines end where the handle of the edge is. -/
  handle_eq : ∀ x ∈ lines, v.edgeHandle? e.graph (l.positions e.graph) x.edge.key = some x.tip
  /-- Every node has a place, in the order of the nodes. -/
  nodes_eq : places.map Prod.fst = e.graph.nodes
  /-- The places are where the nodes are drawn. -/
  placed : ∀ x ∈ places, v.displayPoint (l.positions e.graph) x.1.key = some x.2
  /-- The items are drawn along the lines and about the places. -/
  contents_draws : Draws (contents v e (l.positions e.graph) gradients)
    (itemFigures v e (l.positions e.graph) gradients lines places)
  /-- A picture is the grid and the items, and the main shapes are drawn by their calls. -/
  picture_paints : ∀ picture, v.draw e (l.positions e.graph) l gradients = some picture →
    ∃ ground, Ground v l ground ∧
      Paints v e (l.positions e.graph) gradients ground lines places picture
  /-- Whether there is a picture. -/
  isSome_iff : (v.draw e (l.positions e.graph) l gradients).isSome ↔
    (l = .snapToGrid → (Grid.draw v).isSome)

/-- On a valid board no edge and no node is left out, and none is drawn twice. -/
theorem draw_whole {e : Editor α} (hg : e.graph.Valid) (v : View α) (l : Layout)
    (gradients : Bool) : ∃ lines places, ShowsWhole v e l gradients lines places := by
  have hjoins : ∀ x ∈ lines v e.graph (l.positions e.graph),
      x.Joins v e.graph (l.positions e.graph) := fun x hx => joins_of_mem_lines hx
  refine ⟨lines v e.graph (l.positions e.graph), drawn v (l.positions e.graph) e.graph.nodes,
    map_edge_lines hg v l, hjoins, fun x hx => (hjoins x hx).edgeHandle?,
    map_fst_drawn_nodes hg v l, fun x hx => displayPoint_of_mem_drawn hx,
    draws_contents v e _ gradients, fun picture hpicture => exists_paints hpicture,
    isSome_draw_iff v e _ l gradients⟩

/-- A board on which two edges with one key are chosen, seen while a node is being dragged. -/
theorem draw_whole_lookalike :
    let e : Editor Float :=
      { Editor.start .lookalike true with selection := .ofEdge ⟨"a", "a_1"⟩ }
    let v : View Float :=
      { View.ofSize 640 480 with
        drag := ⟨true, some "a_1", true, .origin, .origin, ⟨200.0, 100.0⟩⟩ }
    e.graph.Valid ∧ ∃ lines places, ShowsWhole v e .verticalTree true lines places := by
  intro e v
  have hvalid : e.graph.Valid := Graph.valid_lookalike
  exact ⟨hvalid, draw_whole hvalid v .verticalTree true⟩

end GraphBoard.Drawing
