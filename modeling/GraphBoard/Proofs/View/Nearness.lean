import GraphBoard.Proofs.View.Topmost

/-!
# GraphBoard.Proofs.View.Nearness

Picking an edge is picking by distance, in exact arithmetic.  The distance of a point to a segment
is measured to one point of it only, and in graph units.

* `clamp_minimizes` — a parabola is lowest, within a range, where its vertex is moved into the
  range;
* `isLeast_distanceToSegment` — so the point of the segment that is chosen is the nearest one;
* `near_iff_touches` — as pixels are in proportion to graph units, an edge is near a screen point
  exactly if some point of its line is drawn within a few pixels of it;
* `edgeAt_last_touched` — and the edge that is picked is the last of these.
-/

namespace GraphBoard

namespace Point

/-- The point at a share of the way from one point to another. -/
def between (a b : Point ℝ) (t : ℝ) : Point ℝ :=
  ⟨a.x + (b.x - a.x) * t, a.y + (b.y - a.y) * t⟩

/-- How far one point is from another. -/
noncomputable def distance (p q : Point ℝ) : ℝ := Scalar.hypot (q.x - p.x) (q.y - p.y)

/-- The square of the distance of two points. -/
def squaredDistance (p q : Point ℝ) : ℝ :=
  (q.x - p.x) * (q.x - p.x) + (q.y - p.y) * (q.y - p.y)

/-- Only the same point has no distance. -/
theorem squaredDistance_eq_zero_iff {p q : Point ℝ} : p.squaredDistance q = 0 ↔ p = q := by
  rw [squaredDistance, mul_self_add_mul_self_eq_zero, sub_eq_zero, sub_eq_zero]
  constructor
  · intro h
    cases p
    cases q
    simp_all
  · rintro rfl
    exact ⟨rfl, rfl⟩

/-- The distance is the root of its square. -/
theorem distance_eq_sqrt (p q : Point ℝ) : p.distance q = √(p.squaredDistance q) := rfl

end Point

/-! ## The nearest point of a segment -/

/-- A line is short if the square of its length is below the least step of a double at one. -/
theorem shortSegment_real : (shortSegment : ℝ) = 1 / (2 ^ 52 : ℕ) := by norm_num [shortSegment]

theorem shortSegment_pos : 0 < (shortSegment : ℝ) := by norm_num [shortSegment]

/-- A parabola is least, within the shares, at its vertex cut off. -/
theorem clamp_minimizes {a m t : ℝ} (ha : 0 < a) (ht : t ∈ Set.Icc (0 : ℝ) 1) :
    let t₀ := Scalar.clamp (m / a) 0 1
    a * t₀ ^ 2 - 2 * m * t₀ ≤ a * t ^ 2 - 2 * m * t := by
  obtain ⟨h0, h1⟩ := ht
  have hrise : a * t ≤ a := mul_le_of_le_one_right ha.le h1
  have hfactor (t₀ : ℝ) : a * t ^ 2 - 2 * m * t - (a * t₀ ^ 2 - 2 * m * t₀) =
      (t - t₀) * (a * t + a * t₀ - 2 * m) := by
    ring
  simp only [Scalar.clamp]
  rw [← sub_nonneg]
  split
  case isTrue hleft =>
    -- the vertex is left of the range
    have hm : m < 0 := by simpa using (div_lt_iff₀ ha).mp hleft
    rw [hfactor]
    exact mul_nonneg (by linarith) (by linarith [mul_nonneg ha.le h0])
  case isFalse =>
    split
    case isTrue hright =>
      -- the vertex is right of the range
      have hm : a < m := by simpa using (lt_div_iff₀ ha).mp hright
      rw [hfactor]
      exact mul_nonneg_of_nonpos_of_nonpos (by linarith) (by linarith)
    case isFalse =>
      have hsquare : a * t ^ 2 - 2 * m * t - (a * (m / a) ^ 2 - 2 * m * (m / a)) =
          a * (t - m / a) ^ 2 := by
        field_simp
        ring
      rw [hsquare]
      exact mul_nonneg ha.le (sq_nonneg _)

variable {p a b : Point ℝ}

/-- The distance to a point of a segment, as a parabola in the share of the way. -/
theorem squaredDistance_between (p a b : Point ℝ) (t : ℝ) :
    p.squaredDistance (a.between b t) =
      a.squaredDistance b * t ^ 2 -
        2 * ((p.x - a.x) * (b.x - a.x) + (p.y - a.y) * (b.y - a.y)) * t + a.squaredDistance p := by
  simp only [Point.squaredDistance, Point.between]
  ring

/-- The share of the way from `a` to `b` at which the distance to `p` is measured. -/
noncomputable def nearestShare (p a b : Point ℝ) : ℝ :=
  if a.squaredDistance b < shortSegment then 0
  else
    Scalar.clamp (((p.x - a.x) * (b.x - a.x) + (p.y - a.y) * (b.y - a.y)) / a.squaredDistance b) 0 1

/-- The distance to a line is that to the point of the line at the nearest share. -/
theorem distanceToSegment_eq (p a b : Point ℝ) :
    distanceToSegment p a b = p.distance (a.between b (nearestShare p a b)) := by
  have hzero : (0.0 : ℝ) = 0 := by norm_num
  have hone : (1.0 : ℝ) = 1 := by norm_num
  simp only [distanceToSegment, hzero, hone]
  rfl

/-- The nearest share is a share. -/
theorem nearestShare_mem_Icc (p a b : Point ℝ) : nearestShare p a b ∈ Set.Icc (0 : ℝ) 1 := by
  rw [nearestShare]
  split
  · exact ⟨le_refl 0, zero_le_one⟩
  · exact Scalar.clamp_mem_Icc zero_le_one

/-- Unless its ends are very near to one another without being one point, no point of a segment is
nearer than the one that is measured to. -/
theorem isLeast_distanceToSegment
    (hlength : a.squaredDistance b = 0 ∨ shortSegment ≤ a.squaredDistance b) :
    IsLeast ((fun t => p.distance (a.between b t)) '' Set.Icc 0 1) (distanceToSegment p a b) := by
  rw [distanceToSegment_eq]
  refine ⟨Set.mem_image_of_mem _ (nearestShare_mem_Icc p a b), ?_⟩
  rintro _ ⟨t, ht, rfl⟩
  simp only [Point.distance_eq_sqrt, squaredDistance_between]
  refine Real.sqrt_le_sqrt (add_le_add_left ?_ _)
  cases hlength with
  | inl hpoint =>
      obtain rfl := Point.squaredDistance_eq_zero_iff.mp hpoint
      simp [hpoint]
  | inr hlong =>
      have hpos : 0 < a.squaredDistance b := lt_of_lt_of_le shortSegment_pos hlong
      rw [nearestShare, if_neg (not_lt.mpr hlong)]
      exact clamp_minimizes hpos ht

/-- The distance to a line is within a bound exactly if that to some point of the line is. -/
theorem distanceToSegment_le_iff
    (hlength : a.squaredDistance b = 0 ∨ shortSegment ≤ a.squaredDistance b) (r : ℝ) :
    distanceToSegment p a b ≤ r ↔ ∃ t ∈ Set.Icc (0 : ℝ) 1, p.distance (a.between b t) ≤ r := by
  obtain ⟨⟨t₀, ht₀, hmeasured⟩, hleast⟩ := isLeast_distanceToSegment (p := p) hlength
  constructor
  · intro hr
    exact ⟨t₀, ht₀, hmeasured.le.trans hr⟩
  · rintro ⟨t, ht, hr⟩
    exact (hleast (Set.mem_image_of_mem _ ht)).trans hr

namespace View

open Drawing

variable {v : View ℝ} {g : Graph ℝ} {q : Positions ℝ} {s : Point ℝ} {e : Edge}

/-! ## On the screen -/

/-- Pixels are in proportion to graph units. -/
theorem distance_place (hk : 0 < v.transform.k) (s c : Point ℝ) :
    s.distance ((frame v).place c) = v.transform.k * (v.toGraph s).distance c := by
  have hsquare : s.squaredDistance ((frame v).place c) =
      v.transform.k ^ 2 * (v.toGraph s).squaredDistance c := by
    simp only [Point.squaredDistance, frame_eq, Frame.place, toGraph]
    field_simp
    ring
  rw [Point.distance_eq_sqrt, Point.distance_eq_sqrt, hsquare, Real.sqrt_mul (sq_nonneg _),
    Real.sqrt_sq hk.le]

/-- Some point of the line between the ends of an edge, where they are drawn, is within 6 pixels of
a screen point. -/
def Touches (v : View ℝ) (q : Positions ℝ) (s : Point ℝ) (e : Edge) : Prop :=
  ∃ a b, v.displayPoint q e.source = some a ∧ v.displayPoint q e.target = some b ∧
    ∃ t ∈ Set.Icc (0 : ℝ) 1, s.distance ((frame v).place (a.between b t)) ≤ 6

/-- The ends of an edge are drawn at one point, or are not too near for a direction. -/
def EndsClear (v : View ℝ) (q : Positions ℝ) (e : Edge) : Prop :=
  ∀ a b, v.displayPoint q e.source = some a → v.displayPoint q e.target = some b →
    a.squaredDistance b = 0 ∨ 1 / (2 ^ 52 : ℕ) ≤ a.squaredDistance b

/-- An edge is near the pointer exactly if it touches the disc about it on the screen. -/
theorem near_iff_touches (hk : 0 < v.transform.k) (he : v.EndsClear q e) :
    v.near q (v.toGraph s) e = true ↔ v.Touches q s e := by
  have hslack : (hitSlack : ℝ) = 6 := by norm_num [hitSlack]
  rw [near, Touches]
  cases ha : v.displayPoint q e.source with
  | none => simp
  | some a =>
      cases hb : v.displayPoint q e.target with
      | none => simp
      | some b =>
          have hlength := he a b ha hb
          rw [← shortSegment_real] at hlength
          simp only [decide_eq_true_eq, distanceToSegment_le_iff hlength, hslack, le_div_iff₀ hk,
            distance_place hk, mul_comm v.transform.k]
          simp

/-! ## The topmost edge -/

/-- The edge that is picked at a screen point is the last one whose line has a point within 6 pixels
of it, and no edge is picked if there is none. -/
theorem edgeAt_last_touched (hk : 0 < v.transform.k) (hedges : ∀ e ∈ g.edges, v.EndsClear q e)
    (s : Point ℝ) :
    match v.edgeAt g q s with
    | none => ∀ e ∈ g.edges, ¬ v.Touches q s e
    | some k => ∃ below e above, g.edges = below ++ e :: above ∧ e.key = k ∧ v.Touches q s e ∧
        ∀ e' ∈ above, ¬ v.Touches q s e' := by
  have hlast := last_of_find?_reverse fun e he => near_iff_touches (s := s) hk (hedges e he)
  rw [edgeAt]
  cases hfind : g.edges.reverse.find? (v.near q (v.toGraph s)) with
  | none =>
      rw [hfind] at hlast
      exact hlast
  | some e =>
      rw [hfind] at hlast
      obtain ⟨below, above, hsplit, he, hmiss⟩ := hlast
      exact ⟨below, e, above, hsplit, rfl, he, hmiss⟩

/-- Three nodes, two of them at one point, and edges between all of them. -/
noncomputable def fan : Graph ℝ :=
  .ofItems
    [⟨"a", "", .empty, none, ⟨0, 0⟩⟩, ⟨"b", "", .skinny, none, ⟨200, 0⟩⟩,
      ⟨"c", "", .special, none, ⟨0, 0⟩⟩]
    [⟨"a", "b", .empty⟩, ⟨"a", "c", .special⟩, ⟨"b", "c", .empty⟩]

theorem displayPoint_fan (k : NodeKey) :
    (ofSize 800 600).displayPoint (Layout.stored.positions fan) k =
      [("a", (⟨0, 0⟩ : Point ℝ)), ("b", ⟨200, 0⟩), ("c", ⟨0, 0⟩)].lookup k := by
  simp [displayPoint, ofSize, Drag.idle, Layout.positions, Positions.get?, fan, Graph.ofItems]

/-- The ends of the edges of the fan are clear of one another. -/
theorem endsClear_fan :
    ∀ e ∈ fan.edges, (ofSize 800 600).EndsClear (Layout.stored.positions fan) e := by
  intro e he a b ha hb
  rw [displayPoint_fan] at ha hb
  simp only [fan, Graph.ofItems, List.mem_cons, List.not_mem_nil, or_false] at he
  obtain rfl | rfl | rfl := he
  all_goals
    simp [List.lookup_cons] at ha hb
    subst ha hb
    norm_num [Point.squaredDistance]

/-- The edges are picked on their lines, the topmost of them where they lie over one another. -/
theorem edgeAt_last_touched_fan :
    let v : View ℝ := ofSize 800 600
    let q : Positions ℝ := Layout.stored.positions fan
    0 < v.transform.k ∧ (∀ e ∈ fan.edges, v.EndsClear q e) ∧
      match v.edgeAt fan q ⟨500, 152⟩ with
      | none => ∀ e ∈ fan.edges, ¬ v.Touches q ⟨500, 152⟩ e
      | some k => ∃ below e above, fan.edges = below ++ e :: above ∧ e.key = k ∧
          v.Touches q ⟨500, 152⟩ e ∧ ∀ e' ∈ above, ¬ v.Touches q ⟨500, 152⟩ e' := by
  intro v q
  have hk : 0 < v.transform.k := by norm_num [v, ofSize]
  exact ⟨hk, endsClear_fan, edgeAt_last_touched hk endsClear_fan ⟨500, 152⟩⟩

end View

end GraphBoard
