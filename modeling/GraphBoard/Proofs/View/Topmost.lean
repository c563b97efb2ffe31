import GraphBoard.Proofs.Scalar.Exact
import GraphBoard.Proofs.Drawing.Grid
import GraphBoard.Proofs.Drawing.Whole
import GraphBoard.View.Pick

/-!
# GraphBoard.Proofs.View.Topmost

Picking follows the picture, in exact arithmetic.  The picture is drawn forward, through the frame
that it opens with; picking goes backward through the nodes, from the screen point to the graph
point that is there.

* `covers_iff` — at a zoom above zero the box around a node covers the graph point exactly if the
  box as it is drawn covers the screen point;
* `nodeAt_topmost` — so the node that is picked is the one whose main shape comes last, in the calls
  of the picture, of those whose boxes are drawn over the screen point.
-/

namespace GraphBoard

/-- The box around the main shape of a node about a point, as a frame puts it on the screen, covers
a screen point. -/
def Frame.BoxCovers (f : Frame ℝ) (x : Node ℝ × Point ℝ) (s : Point ℝ) : Prop :=
  let extent : HalfExtent ℝ := x.1.kind.halfExtent
  let topLeft := f.place ⟨x.2.x - extent.width, x.2.y - extent.height⟩
  let bottomRight := f.place ⟨x.2.x + extent.width, x.2.y + extent.height⟩
  (topLeft.x ≤ s.x ∧ s.x ≤ bottomRight.x) ∧ topLeft.y ≤ s.y ∧ s.y ≤ bottomRight.y

namespace View

open Drawing

variable {v : View ℝ} {e : Editor ℝ} {p : Positions ℝ} {s : Point ℝ}

/-! ## One node -/

/-- The frame of a picture, as the opening moves the origin and scales the axes. -/
theorem frame_eq (v : View ℝ) :
    frame v = ⟨⟨v.transform.x, v.transform.y⟩, v.transform.k, v.transform.k⟩ := by
  simp only [frame, opening, Context.run, Context.step, List.foldl_cons, List.foldl_nil,
    Frame.change, Frame.pixels, Frame.place, Point.origin]
  norm_num

/-- A coordinate is within a distance of a centre exactly if it is drawn between the ends. -/
theorem abs_sub_le_iff_between {k : ℝ} (hk : 0 < k) (x c w t : ℝ) :
    |(x - t) / k - c| ≤ w ↔ t + k * (c - w) ≤ x ∧ x ≤ t + k * (c + w) := by
  have hlow : c - w ≤ (x - t) / k ↔ t + k * (c - w) ≤ x := by
    rw [le_div_iff₀ hk, mul_comm, le_sub_iff_add_le, add_comm]
  have hhigh : (x - t) / k ≤ c + w ↔ x ≤ t + k * (c + w) := by
    rw [div_le_iff₀ hk, mul_comm, sub_le_iff_le_add, add_comm]
  rw [abs_sub_le_iff, ← hlow, ← hhigh, and_comm]
  constructor <;> rintro ⟨h1, h2⟩ <;> constructor <;> linarith

/-- The box around a node covers the graph point exactly if it is drawn over the screen point. -/
theorem covers_iff (hk : 0 < v.transform.k) {n : Node ℝ} {c : Point ℝ}
    (hc : v.displayPoint p n.key = some c) :
    v.covers p (v.toGraph s) n = true ↔ (frame v).BoxCovers (n, c) s := by
  simp only [covers, hc, frame_eq, Frame.BoxCovers, Frame.place, toGraph, Bool.and_eq_true]
  exact and_congr (decide_eq_true_iff.trans (abs_sub_le_iff_between hk _ _ _ _))
    (decide_eq_true_iff.trans (abs_sub_le_iff_between hk _ _ _ _))

/-! ## The topmost node -/

/-- A search from the back finds the last that meets a condition. -/
theorem last_of_find?_reverse {β : Type} {f : β → Bool} {P : β → Prop} {xs : List β}
    (hf : ∀ x ∈ xs, f x = true ↔ P x) :
    match xs.reverse.find? f with
    | none => ∀ x ∈ xs, ¬ P x
    | some x => ∃ below above, xs = below ++ x :: above ∧ P x ∧ ∀ y ∈ above, ¬ P y := by
  cases hfind : xs.reverse.find? f with
  | none =>
      intro x hx hmeets
      exact List.find?_eq_none.mp hfind x (List.mem_reverse.mpr hx) ((hf x hx).mpr hmeets)
  | some x =>
      obtain ⟨hx, above, below, hsplit, hmiss⟩ := List.find?_eq_some_iff_append.mp hfind
      have hxs : xs = below.reverse ++ x :: above.reverse := by
        rw [List.reverse_eq_iff.mp hsplit]
        simp
      have hmem : x ∈ xs := hxs ▸ List.mem_append_right _ List.mem_cons_self
      refine ⟨below.reverse, above.reverse, hxs, (hf x hmem).mp hx, fun y hy hmeets => ?_⟩
      have hmem' : y ∈ xs := hxs ▸ List.mem_append_right _ (List.mem_cons_of_mem x hy)
      have hno := hmiss y (List.mem_reverse.mp hy)
      rw [(hf y hmem').mpr hmeets] at hno
      contradiction

/-- Of the places of the nodes of a graph, picking takes the last at which a box is drawn over the
screen point. -/
theorem nodeAt_last {g : Graph ℝ} {places : List (Node ℝ × Point ℝ)} {f : Frame ℝ}
    (hnodes : places.map Prod.fst = g.nodes)
    (hcovers : ∀ x ∈ places, v.covers p (v.toGraph s) x.1 = true ↔ f.BoxCovers x s) :
    match v.nodeAt g p s with
    | none => ∀ x ∈ places, ¬ f.BoxCovers x s
    | some k => ∃ below x above, places = below ++ x :: above ∧ x.1.key = k ∧ f.BoxCovers x s ∧
        ∀ y ∈ above, ¬ f.BoxCovers y s := by
  have hpick : v.nodeAt g p s = (places.reverse.find?
      (v.covers p (v.toGraph s) ∘ Prod.fst)).map fun x => x.1.key := by
    rw [nodeAt, ← hnodes, ← List.map_reverse, List.find?_map, Option.map_map]
    rfl
  have hlast := last_of_find?_reverse (f := v.covers p (v.toGraph s) ∘ Prod.fst) hcovers
  rw [hpick]
  cases hfind : places.reverse.find? (v.covers p (v.toGraph s) ∘ Prod.fst) with
  | none =>
      rw [hfind] at hlast
      exact hlast
  | some x =>
      rw [hfind] at hlast
      obtain ⟨below, above, hplaces, hx, hmiss⟩ := hlast
      exact ⟨below, x, above, hplaces, rfl, hx, hmiss⟩

/-- The picture of a board, and what is picked at a screen point.  The picture draws the figures of
the grid, of the edges along their lines, of the edge being drawn, and of the nodes about their
places, and no others, and all of them where the view's transform puts them.  Picked is the last of
the nodes whose boxes are drawn over the point; nothing but its front and the nodes above it is
drawn after its main shape. -/
structure PicksTopmost (v : View ℝ) (e : Editor ℝ) (l : Layout) (gradients : Bool) (s : Point ℝ)
    (picture : List (Call ℝ)) (ground : List (List (Call ℝ))) (lines : List (Line ℝ))
    (places : List (Node ℝ × Point ℝ)) : Prop where
  /-- The picture is that of the board. -/
  draw_eq : v.draw e (l.positions e.graph) l gradients = some picture
  /-- The figures before the items are those of the grid. -/
  ground_of_grid : Ground v l ground
  /-- Every edge has a line, in the order of the edges. -/
  edges_eq : lines.map Line.edge = e.graph.edges
  /-- The lines go from outline to outline. -/
  joins : ∀ x ∈ lines, x.Joins v e.graph (l.positions e.graph)
  /-- Every node has a place, in the order of the nodes. -/
  nodes_eq : places.map Prod.fst = e.graph.nodes
  /-- The places are where the nodes are drawn. -/
  placed : ∀ x ∈ places, v.displayPoint (l.positions e.graph) x.1.key = some x.2
  /-- These are all figures, and main shapes come in the order of the places. -/
  paints : Paints v e (l.positions e.graph) gradients ground lines places picture
  /-- Every path is led, filled and drawn along in the frame of the view's transform. -/
  framed : ∀ o ∈ Context.trace Frame.change ⟨.pixels, []⟩ picture, o.2.onPath = true →
    o.1 = ⟨⟨v.transform.x, v.transform.y⟩, v.transform.k, v.transform.k⟩
  /-- The node that is picked. -/
  nodeAt_eq :
    let f : Frame ℝ := ⟨⟨v.transform.x, v.transform.y⟩, v.transform.k, v.transform.k⟩
    match v.nodeAt e.graph (l.positions e.graph) s with
    | none => ∀ x ∈ places, ¬ f.BoxCovers x s
    | some k => ∃ below x above, places = below ++ x :: above ∧ x.1.key = k ∧ f.BoxCovers x s ∧
        ∀ y ∈ above, ¬ f.BoxCovers y s

/-- What is picked is what is painted on top. -/
theorem nodeAt_topmost (hg : e.graph.Valid) (l : Layout) (hk : 0 < v.transform.k)
    (gradients : Bool) (s : Point ℝ) :
    ∃ picture ground lines places, PicksTopmost v e l gradients s picture ground lines places := by
  have hsome : (v.draw e (l.positions e.graph) l gradients).isSome :=
    Option.isSome_map.trans (grid?_isSome v l)
  obtain ⟨picture, hpicture⟩ := Option.isSome_iff_exists.mp hsome
  obtain ⟨ground, hground, hpaints⟩ := exists_paints hpicture
  have hnodes := map_fst_drawn_nodes hg v l
  have hplaced : ∀ x ∈ drawn v (l.positions e.graph) e.graph.nodes,
      v.displayPoint (l.positions e.graph) x.1.key = some x.2 :=
    fun x hx => displayPoint_of_mem_drawn hx
  refine ⟨picture, ground, _, _, hpicture, hground, map_edge_lines hg v l,
    fun x hx => joins_of_mem_lines hx, hnodes, hplaced, hpaints, ?_, ?_⟩
  · rw [← frame_eq]
    exact frame_of_mem_trace hpicture
  · rw [← frame_eq]
    exact nodeAt_last hnodes fun x hx => covers_iff hk (hplaced x hx)

/-- Two nodes, one over the other. -/
def stack : Graph ℝ :=
  .ofItems [⟨"a", "", .empty, none, ⟨0, 0⟩⟩, ⟨"b", "", .skinny, none, ⟨300, 0⟩⟩] []

/-- The two nodes form a valid board. -/
theorem valid_stack : stack.Valid := by
  constructor <;> simp [stack, Graph.ofItems, Graph.keys]

/-- A view in which the second of the nodes has been dragged over the first. -/
noncomputable def stackView : View ℝ :=
  { View.ofSize 640 480 with drag := ⟨true, some "b", true, .origin, ⟨300, 0⟩, ⟨10, 5⟩⟩ }

/-- Where both nodes are drawn, the second is picked, since it is painted later. -/
theorem nodeAt_topmost_stack :
    stack.Valid ∧ 0 < stackView.transform.k ∧
      ∃ picture ground lines places, PicksTopmost stackView (.start stack true) .stored true
        ⟨320, 120⟩ picture ground lines places := by
  have hk : 0 < stackView.transform.k := by norm_num [stackView, View.ofSize]
  exact ⟨valid_stack, hk, nodeAt_topmost (e := .start stack true) valid_stack .stored hk true _⟩

end View

end GraphBoard
