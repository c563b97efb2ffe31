import GraphBoard.Proofs.Drawing.Boundary
import GraphBoard.Proofs.Drawing.Whole

/-!
# GraphBoard.Proofs.Drawing.Arrow

Which way arrows point, in exact arithmetic.  The two ends of an arrow are found without regard to
one another, each on the way from one centre to the other.

* `Point.along_between` — the way between two points of a segment, one seen from each end, goes on
  along the segment as long as their shares of it do not exceed the whole;
* `along_boundaryPoint_pos_iff` — so the way from outline to outline goes towards the other centre
  exactly if what is inside the shapes leaves room between the centres;
* `arrow_forward_iff` — on a valid board this says which of the edges that are drawn point at their
  targets.
-/

namespace GraphBoard

/-- The scalar product of the step from one point to another with the step between two more. -/
def Point.along (a b p q : Point ℝ) : ℝ := (b.x - a.x) * (q.x - p.x) + (b.y - a.y) * (q.y - p.y)

/-- Of two points on a line, the step from the one to the other goes along it as their shares leave
room. -/
theorem Point.along_between (a b : Point ℝ) (s t : ℝ) :
    a.along b (a.between b s) (b.between a t) = a.squaredDistance b * (1 - (s + t)) := by
  simp only [along, between, squaredDistance]
  ring

/-- The distance is the same both ways. -/
theorem Point.distance_comm (p q : Point ℝ) : p.distance q = q.distance p := by
  have hsquare : p.squaredDistance q = q.squaredDistance p := by
    simp only [squaredDistance]
    ring
  rw [distance_eq_sqrt, distance_eq_sqrt, hsquare]

/-- Two shares that are cut off at one leave room exactly if they do uncut. -/
theorem min_add_min_lt_one_iff {s t : ℝ} (hs : 0 ≤ s) (ht : 0 ≤ t) :
    min s 1 + min t 1 < 1 ↔ s + t < 1 := by
  grind

/-- How far from the centre of a node the line to another point is taken to be inside the shape: as
far as in a circle, unless the shape is a box. -/
noncomputable def NodeKind.reach (kind : NodeKind) (c q : Point ℝ) : ℝ :=
  match kind with
  | .skinny => kind.insideShare (q.x - c.x) (q.y - c.y) (c.distance q) * c.distance q
  | _ => kind.halfExtent.width

/-- How far a shape reaches is the share of the way that is inside. -/
theorem NodeKind.reach_eq (kind : NodeKind) {c q : Point ℝ} (h : 0 < c.distance q) :
    kind.reach c q =
      kind.insideShare (q.x - c.x) (q.y - c.y) (c.distance q) * c.distance q := by
  by_cases hkind : kind = .skinny
  · subst hkind
    rfl
  · rw [insideShare_of_ne_skinny hkind, div_mul_cancel₀ _ h.ne']
    cases kind <;> first | rfl | contradiction

/-- The way from outline to outline goes on from the one centre to the other exactly if there is
room for both shapes between the centres. -/
theorem along_boundaryPoint_pos_iff {a b : Point ℝ} (h : smallDistance ≤ a.distance b)
    (source target : NodeKind) :
    0 < a.along b (boundaryPoint a b source) (boundaryPoint b a target) ↔
      source.reach a b + target.reach b a < a.distance b := by
  have hpos : 0 < a.distance b := lt_of_lt_of_le (by norm_num [smallDistance_real]) h
  have hsquare : 0 < a.squaredDistance b := Real.sqrt_pos.mp hpos
  have hback : smallDistance ≤ b.distance a := h.trans_eq (Point.distance_comm a b)
  rw [boundaryPoint_of_far h, boundaryPoint_of_far hback, Point.along_between,
    mul_pos_iff_of_pos_left hsquare, sub_pos, NodeKind.share, NodeKind.share,
    min_add_min_lt_one_iff (source.insideShare_nonneg _ _ (a.distance_nonneg b))
      (target.insideShare_nonneg _ _ (b.distance_nonneg a)),
    source.reach_eq hpos, target.reach_eq (hpos.trans_eq (Point.distance_comm a b)),
    Point.distance_comm b a, ← add_mul]
  exact (mul_lt_iff_lt_one_left hpos).symm

namespace Drawing

section

variable {v : View ℝ} {g : Graph ℝ} {s : Selection} {e : Edge}

/-- Every edge of a valid graph has a line. -/
theorem exists_line (hg : g.Valid) (v : View ℝ) (l : Layout) (he : e ∈ g.edges) :
    ∃ x, line? v g (l.positions g) e = some x := by
  rw [← map_edge_lines hg v l] at he
  obtain ⟨x, hx, rfl⟩ := List.mem_map.mp he
  obtain ⟨f, -, hline⟩ := List.mem_filterMap.mp hx
  obtain ⟨rfl, -⟩ := joins_of_line? hline
  exact ⟨x, hline⟩

/-- An edge that has a line is drawn along it. -/
theorem edge_of_line {p : Positions ℝ} {x : Line ℝ} (h : line? v g p e = some x) :
    edge v g s p e = arrow v s e x.start x.tip := by
  rw [edge_eq, h]
  exact List.append_nil _

/-- An arrow is left out exactly if its line is too short. -/
theorem arrow_eq_nil_iff {start tip : Point ℝ} :
    arrow v s e start tip = [] ↔ start.distance tip < smallDistance := by
  constructor
  · intro h
    by_contra hlong
    rw [show arrow v s e start tip = _ from if_neg hlong] at h
    simp at h
  · intro h
    exact if_pos h

/-- On a valid board every edge has a line between the nodes at its ends, and if the edge is drawn,
its arrow points from the source towards the target exactly if the source and the target reach less
far towards one another than the distance of their centres. -/
theorem arrow_forward_iff (hg : g.Valid) (v : View ℝ) (l : Layout) (s : Selection)
    (he : e ∈ g.edges) :
    ∃ (a b : Point ℝ) (source target : Node ℝ) (x : Line ℝ),
      v.displayPoint (l.positions g) e.source = some a ∧
      v.displayPoint (l.positions g) e.target = some b ∧ g.node? e.source = some source ∧
      g.node? e.target = some target ∧ Draws (edge v g s (l.positions g) e) (x.figures v s) ∧
      x.edge = e ∧
      (edge v g s (l.positions g) e ≠ [] →
        (0 < a.along b x.start x.tip ↔
          source.kind.reach a b + target.kind.reach b a < a.distance b)) := by
  obtain ⟨x, hline⟩ := exists_line hg v l he
  obtain ⟨rfl, a, b, source, target, ha, hb, hsource, htarget, hstart, htip⟩ := joins_of_line? hline
  rw [edge_of_line hline]
  refine ⟨a, b, source, target, x, ha, hb, hsource, htarget, draws_arrow x.edge x.start x.tip, rfl,
    fun hdrawn => ?_⟩
  rw [hstart, htip] at hdrawn ⊢
  refine along_boundaryPoint_pos_iff (le_of_not_gt fun hnear => hdrawn ?_) _ _
  -- nodes that have no direction to one another have no arrow either
  have hback : b.distance a < smallDistance := (Point.distance_comm b a).trans_lt hnear
  rw [boundaryPoint_of_near hnear, boundaryPoint_of_near hback]
  exact arrow_eq_nil_iff.mpr hnear

/-- Two discs of which each covers a part of the other, and an edge between them. -/
def overlapping : Graph ℝ :=
  .ofItems [⟨"a", "", .empty, none, ⟨0, 0⟩⟩, ⟨"b", "", .empty, none, ⟨30, 0⟩⟩] [⟨"a", "b", .empty⟩]

theorem valid_overlapping : overlapping.Valid := by
  constructor <;> simp [overlapping, Graph.ofItems, Graph.keys]

/-- A view in which arrowheads are longer than nodes are wide. -/
noncomputable def farView : View ℝ :=
  { View.ofSize 640.0 480.0 with transform := ⟨320.0, 240.0, 0.125⟩ }

/-- The arrow between the two discs is drawn, and points back. -/
theorem arrow_forward_iff_overlapping :
    let g := overlapping
    let e : Edge := ⟨"a", "b", .empty⟩
    let v := farView
    let p : Positions ℝ := Layout.stored.positions g
    g.Valid ∧ e ∈ g.edges ∧ ∃ (a b : Point ℝ) (source target : Node ℝ) (x : Line ℝ),
      v.displayPoint p e.source = some a ∧ v.displayPoint p e.target = some b ∧
        g.node? e.source = some source ∧ g.node? e.target = some target ∧
        Draws (edge v g .empty p e) (x.figures v .empty) ∧ x.edge = e ∧
        (edge v g .empty p e ≠ [] →
          (0 < a.along b x.start x.tip ↔
            source.kind.reach a b + target.kind.reach b a < a.distance b)) := by
  intro g e v p
  have he : e ∈ g.edges := List.mem_singleton_self e
  exact ⟨valid_overlapping, he, arrow_forward_iff valid_overlapping v .stored .empty he⟩

theorem displayPoint_overlapping (k : NodeKey) :
    farView.displayPoint (Layout.stored.positions overlapping) k =
      [("a", (⟨0, 0⟩ : Point ℝ)), ("b", ⟨30, 0⟩)].lookup k := by
  simp [View.displayPoint, farView, View.ofSize, Drag.idle, Layout.positions, Positions.get?,
    overlapping, Graph.ofItems]

/-- An arrow from one of the discs to the other is drawn, and it points back. -/
theorem arrow_points_back :
    let g := overlapping
    let e : Edge := ⟨"a", "b", .empty⟩
    let v := farView
    let p : Positions ℝ := Layout.stored.positions g
    let a : Point ℝ := ⟨0, 0⟩
    let b : Point ℝ := ⟨30, 0⟩
    let x : Line ℝ := ⟨e, ⟨22, 0⟩, ⟨8, 0⟩⟩
    g.Valid ∧ e ∈ g.edges ∧ v.displayPoint p e.source = some a ∧
      v.displayPoint p e.target = some b ∧ Draws (edge v g .empty p e) (x.figures v .empty) ∧
      edge v g .empty p e ≠ [] ∧ a.along b x.start x.tip < 0 := by
  intro g e v p a b x
  have ha : v.displayPoint p e.source = some a := displayPoint_overlapping "a"
  have hb : v.displayPoint p e.target = some b := displayPoint_overlapping "b"
  have hsquare : a.squaredDistance b = 30 ^ 2 := by norm_num [Point.squaredDistance, a, b]
  have hdistance : a.distance b = 30 := by
    rw [Point.distance_eq_sqrt, hsquare, Real.sqrt_sq (by norm_num)]
  have hend {c q : Point ℝ} (h : c.distance q = 30) :
      boundaryPoint c q .empty = c.between q (22 / 30) := by
    rw [boundaryPoint_of_far (by norm_num [h, smallDistance_real]), NodeKind.share, h]
    norm_num [NodeKind.insideShare, NodeKind.halfExtent, nodeRadius]
  have hline : line? v g p e = some x := by
    have hstart := hend hdistance
    have htip := hend ((Point.distance_comm b a).trans hdistance)
    have hsource : g.node? e.source = some ⟨"a", "", .empty, none, a⟩ := rfl
    have htarget : g.node? e.target = some ⟨"b", "", .empty, none, b⟩ := rfl
    rw [line?, ha, hb, hsource, htarget]
    norm_num [hstart, htip, Point.between, a, b, x]
  rw [edge_of_line hline]
  refine ⟨valid_overlapping, List.mem_singleton_self e, ha, hb, draws_arrow e x.start x.tip, ?_, ?_⟩
  · have hsquare' : x.start.squaredDistance x.tip = 14 ^ 2 := by
      norm_num [Point.squaredDistance, x]
    rw [Ne, arrow_eq_nil_iff, Point.distance_eq_sqrt, hsquare', Real.sqrt_sq (by norm_num),
      smallDistance_real]
    norm_num
  · norm_num [Point.along, a, b, x]

end

end Drawing

end GraphBoard
