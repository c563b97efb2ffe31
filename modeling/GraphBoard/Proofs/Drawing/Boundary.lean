import GraphBoard.Proofs.Drawing.Outline

/-!
# GraphBoard.Proofs.Drawing.Boundary

Where edges meet the outlines of nodes as they are drawn, in exact arithmetic.  The boundary point
is at a share of the way from the centre of a node, and the gauge of the shape says how far that is.

* `insideShare_skinny` — for a box it is the share that leads to the outline;
* `insideShare_of_ne_skinny` — other shapes are taken for circles, which diamonds and hexagons are
  inside of but for their corners (`distance_le_gauge_mul`);
* `boundaryPoint_mem_outline_iff` — so edges meet the outlines of circles and boxes, and those of
  diamonds and hexagons where they come from the direction of a corner.
-/

namespace GraphBoard

namespace NodeKind

/-! ## Far from a shape -/

/-- The gauge is at most twice the sum of the coordinates. -/
theorem unitGauge_le (kind : NodeKind) (x y : ℝ) : kind.unitGauge x y ≤ 2 * (|x| + |y|) := by
  have hx := abs_nonneg x
  have hy := abs_nonneg y
  cases kind with
  | skinny => exact max_le (by linarith) (by linarith)
  | special =>
      rw [unitGauge]
      linarith
  | poly => exact max_le (by linarith) (by linarith)
  | empty | complexCircle =>
      rw [unitGauge, hypot_eq_norm]
      exact (Complex.norm_le_abs_re_add_abs_im ⟨x, y⟩).trans (by linarith)

/-- What a shape is measured by is at least one unit wide and high. -/
theorem one_le_unit (kind : NodeKind) : 1 ≤ kind.unit.width ∧ 1 ≤ kind.unit.height := by
  have hroot : (1 : ℝ) ≤ √3 := by norm_num
  cases kind <;> norm_num [unit, halfExtent, nodeRadius]
  linarith

/-- The gauge of a point is at most four times its distance from the centre. -/
theorem gauge_le_distance (kind : NodeKind) (c q : Point ℝ) :
    kind.gauge c q ≤ 4 * c.distance q := by
  obtain ⟨hwidth, hheight⟩ := kind.one_le_unit
  have hx : |q.x - c.x| ≤ c.distance q := by
    rw [Point.distance, hypot_eq_norm]
    exact Complex.abs_re_le_norm ⟨_, _⟩
  have hy : |q.y - c.y| ≤ c.distance q := by
    rw [Point.distance, hypot_eq_norm]
    exact Complex.abs_im_le_norm ⟨_, _⟩
  have hshrink (d r : ℝ) (hr : 1 ≤ r) : |d / r| ≤ |d| := by
    rw [abs_div, abs_of_pos (zero_lt_one.trans_le hr)]
    exact div_le_self (abs_nonneg d) hr
  have hbound := kind.unitGauge_le ((q.x - c.x) / kind.unit.width) ((q.y - c.y) / kind.unit.height)
  rw [gauge]
  linarith [hshrink (q.x - c.x) _ hwidth, hshrink (q.y - c.y) _ hheight]

end NodeKind

/-! ## The share of the way that is inside -/

theorem Point.distance_nonneg (p q : Point ℝ) : 0 ≤ p.distance q := Real.sqrt_nonneg _

/-- The share of the way to another point at which the line from the centre of a node is taken to
leave the node's outline. -/
noncomputable def NodeKind.share (kind : NodeKind) (c q : Point ℝ) : ℝ :=
  min (kind.insideShare (q.x - c.x) (q.y - c.y) (c.distance q)) 1

/-- The share of the way that is inside is not negative. -/
theorem NodeKind.insideShare_nonneg (kind : NodeKind) (dx dy : ℝ) {distance : ℝ}
    (h : 0 ≤ distance) : 0 ≤ kind.insideShare dx dy distance := by
  obtain ⟨hwidth, hheight⟩ := kind.unit_pos
  cases kind with
  | skinny =>
      simp only [insideShare, Scalar.min_real, Scalar.max_real, Scalar.abs_real]
      exact le_min (div_nonneg hwidth.le (le_max_of_le_left (abs_nonneg _)))
        (div_nonneg hheight.le (le_max_of_le_left (abs_nonneg _)))
  | empty | special | poly | complexCircle => exact div_nonneg hwidth.le h

/-- All shapes but boxes are taken for circles. -/
theorem NodeKind.insideShare_of_ne_skinny {kind : NodeKind} (h : kind ≠ .skinny)
    (dx dy distance : ℝ) :
    kind.insideShare dx dy distance = kind.halfExtent.width / distance := by
  cases kind <;> first | rfl | contradiction

theorem NodeKind.share_mem_Icc (kind : NodeKind) (c q : Point ℝ) :
    kind.share c q ∈ Set.Icc (0 : ℝ) 1 :=
  ⟨le_min (kind.insideShare_nonneg _ _ (c.distance_nonneg q)) zero_le_one, min_le_right _ _⟩

/-- Two points are near within a thousandth. -/
theorem smallDistance_real : (smallDistance : ℝ) = 1 / 1000 := by norm_num [smallDistance]

/-- Towards a point that is not near, the line leaves at the share of the way. -/
theorem boundaryPoint_of_far {c q : Point ℝ} (h : smallDistance ≤ c.distance q) (kind : NodeKind) :
    boundaryPoint c q kind = c.between q (kind.share c q) := by
  have hone : (1.0 : ℝ) = 1 := by norm_num
  have hfar : ¬ c.distance q < smallDistance := not_lt.mpr h
  rw [NodeKind.share, ← Scalar.min_real, ← hone]
  exact if_neg hfar

/-- Towards a point that is near, the line starts at the centre. -/
theorem boundaryPoint_of_near {c q : Point ℝ} (h : c.distance q < smallDistance) (kind : NodeKind) :
    boundaryPoint c q kind = c := if_pos h

namespace NodeKind

/-! ## Boxes -/

/-- A step of several extents is longer than the least length that counts. -/
theorem max_abs_smallDistance_le {e g x : ℝ} (he : 1 ≤ e) (hg : 1 ≤ g) (hx : |x| ≤ g) :
    max |e * x| smallDistance ≤ e * g := by
  have hextent : 1 ≤ e * g := one_le_mul_of_one_le_of_one_le he hg
  rw [abs_mul, abs_of_pos (zero_lt_one.trans_le he), smallDistance_real]
  exact max_le (mul_le_mul_of_nonneg_left hx (by linarith)) (by linarith)

/-- For a coordinate below the gauge, the quotient of the extents is at least the inverse of the
gauge. -/
theorem inv_le_div_max {e g x : ℝ} (he : 1 ≤ e) (hg : 1 ≤ g) (hx : |x| ≤ g) :
    g⁻¹ ≤ e / max |e * x| smallDistance := by
  have hlong := max_abs_smallDistance_le he hg hx
  have hmax : 0 < max |e * x| (smallDistance : ℝ) :=
    lt_max_of_lt_right (by norm_num [smallDistance_real])
  rw [le_div_iff₀ hmax, inv_mul_le_iff₀ (zero_lt_one.trans_le hg), mul_comm g]
  exact hlong

/-- For the coordinate that is the gauge, it is the inverse. -/
theorem div_max_eq_inv {e g x : ℝ} (he : 1 ≤ e) (hg : 1 ≤ g) (hx : |x| = g) :
    e / max |e * x| smallDistance = g⁻¹ := by
  have hextent : e * g ≤ |e * x| := by
    rw [abs_mul, hx, abs_of_pos (zero_lt_one.trans_le he)]
  have hlong := le_antisymm (max_abs_smallDistance_le he hg hx.le) (le_max_of_le_left hextent)
  rw [hlong, div_mul_cancel_left₀ (zero_lt_one.trans_le he).ne']

/-- In a box the way to the outline is cut by the nearer one of two sides. -/
theorem insideShare_skinny {c q : Point ℝ} (h : 1 ≤ skinny.gauge c q) (distance : ℝ) :
    skinny.insideShare (q.x - c.x) (q.y - c.y) distance = (skinny.gauge c q)⁻¹ := by
  obtain ⟨p, hq, hmax⟩ := skinny.exists_spread c q
  obtain ⟨hwidth, hheight⟩ := skinny.one_le_unit
  generalize skinny.gauge c q = g at h hmax ⊢
  subst hq
  simp only [insideShare, Point.spread, add_sub_cancel_left, Scalar.min_real, Scalar.max_real,
    Scalar.abs_real]
  change min (skinny.unit.width / _) (skinny.unit.height / _) = _
  obtain ⟨hx, hy⟩ | ⟨hy, hx⟩ := max_eq_iff.mp hmax.symm
  · rw [div_max_eq_inv hwidth h hx]
    exact min_eq_left (inv_le_div_max hheight h (hy.trans_eq hx))
  · rw [div_max_eq_inv hheight h hy]
    exact min_eq_right (inv_le_div_max hwidth h (hx.trans_eq hy))

/-! ## Diamonds and hexagons -/

/-- The gauge of a diamond is at least the length, and is the length on the axes. -/
theorem squared_le_unitGauge_special (x y : ℝ) :
    x ^ 2 + y ^ 2 ≤ special.unitGauge x y ^ 2 ∧
      (special.unitGauge x y ^ 2 = x ^ 2 + y ^ 2 ↔ x = 0 ∨ y = 0) := by
  have hdiff : special.unitGauge x y ^ 2 = x ^ 2 + y ^ 2 + 2 * (|x| * |y|) := by
    rw [unitGauge]
    linear_combination sq_abs x + sq_abs y
  have hrest : 0 ≤ |x| * |y| := by positivity
  rw [hdiff]
  refine ⟨by linarith, ?_⟩
  simp

/-- The gauge of a hexagon is at least the length, and is the length towards the corners. -/
theorem squared_le_unitGauge_poly (x y : ℝ) :
    x ^ 2 + (√3 * y) ^ 2 ≤ poly.unitGauge x y ^ 2 ∧
      (poly.unitGauge x y ^ 2 = x ^ 2 + (√3 * y) ^ 2 ↔ y = 0 ∨ |y| = |x|) := by
  have hthree : (√3 * y) ^ 2 = 3 * y ^ 2 := by rw [mul_pow, Real.sq_sqrt (by norm_num)]
  have hx := sq_abs x
  have hy := sq_abs y
  rw [hthree]
  by_cases hflat : |y| ≤ |x|
  · -- towards a side that ends in the left or the right corner
    have hgauge : poly.unitGauge x y = |x| + |y| := max_eq_left (by linarith)
    have hdiff : poly.unitGauge x y ^ 2 = x ^ 2 + 3 * y ^ 2 + 2 * (|y| * (|x| - |y|)) := by
      rw [hgauge]
      linear_combination hx + 3 * hy
    have hrest : 0 ≤ |y| * (|x| - |y|) := mul_nonneg (abs_nonneg y) (by linarith)
    rw [hdiff]
    refine ⟨by linarith, ?_⟩
    simp [sub_eq_zero, eq_comm]
  · -- towards the upper or the lower side
    have hgauge : poly.unitGauge x y = |y| + |y| := max_eq_right (by linarith)
    have hdiff : poly.unitGauge x y ^ 2 = x ^ 2 + 3 * y ^ 2 + (|y| ^ 2 - |x| ^ 2) := by
      rw [hgauge]
      linear_combination 3 * hy + hx
    have hrest : |x| ^ 2 < |y| ^ 2 := by
      have hless : |x| < |y| := not_le.mp hflat
      gcongr
    have hy0 : y ≠ 0 := by
      rintro rfl
      simp at hflat
    rw [hdiff]
    refine ⟨by linarith, iff_of_false (by linarith) ?_⟩
    rintro (h | h)
    · exact hy0 h
    · exact hflat h.le

/-- A bound on the square of the hypotenuse is one on the hypotenuse, and is reached with it. -/
theorem hypot_le_and_eq_iff {x y r : ℝ} (hr : 0 ≤ r) (h : x ^ 2 + y ^ 2 ≤ r ^ 2) :
    Scalar.hypot x y ≤ r ∧ (r = Scalar.hypot x y ↔ r ^ 2 = x ^ 2 + y ^ 2) := by
  have hnonneg : 0 ≤ x ^ 2 + y ^ 2 := by positivity
  rw [Scalar.hypot, Scalar.sqrt_real, ← sq, ← sq]
  refine ⟨Real.sqrt_le_iff.mpr ⟨hr, h⟩, ?_⟩
  rw [eq_comm, Real.sqrt_eq_iff_mul_self_eq hnonneg hr, sq r, eq_comm]

/-- Diamonds and hexagons are inside the circle that they are taken for, and they meet it in their
corners. -/
theorem distance_le_gauge_mul {kind : NodeKind} (h : kind ≠ .skinny) (c q : Point ℝ) :
    c.distance q ≤ kind.gauge c q * kind.unit.width ∧
      (kind.gauge c q * kind.unit.width = c.distance q ↔ kind.Cornerwise c q) := by
  obtain ⟨p, rfl, hgauge⟩ := kind.exists_spread c q
  have hpos := kind.unit_pos
  have hwidth := hpos.width_pos
  have hnonneg := kind.unitGauge_nonneg p.x p.y
  rw [hgauge]
  cases kind with
  | skinny => contradiction
  | empty | complexCircle =>
      rw [c.distance_spread hpos (mul_one _).symm, one_mul]
      exact ⟨le_refl _, iff_of_true rfl trivial⟩
  | special =>
      obtain ⟨hsquare, hcorner⟩ := squared_le_unitGauge_special p.x p.y
      obtain ⟨hle, heq⟩ := hypot_le_and_eq_iff hnonneg hsquare
      rw [c.distance_spread hpos (mul_one _).symm, one_mul, mul_left_inj' hwidth.ne', heq, hcorner]
      refine ⟨mul_le_mul_of_nonneg_right hle hwidth.le, ?_⟩
      simp [Cornerwise, Point.spread, hwidth.ne', hpos.height_pos.ne']
  | poly =>
      obtain ⟨hsquare, hcorner⟩ := squared_le_unitGauge_poly p.x p.y
      obtain ⟨hle, heq⟩ := hypot_le_and_eq_iff hnonneg hsquare
      have hheight : poly.unit.height = poly.unit.width * √3 := rfl
      rw [c.distance_spread hpos hheight, mul_left_inj' hwidth.ne', heq, hcorner]
      refine ⟨mul_le_mul_of_nonneg_right hle hwidth.le, ?_⟩
      have hside : |poly.unit.height * p.y| = √3 * |poly.unit.width * p.x| ↔ |p.y| = |p.x| := by
        rw [hheight, mul_comm poly.unit.width, mul_assoc, abs_mul, abs_mul, abs_mul,
          abs_of_nonneg (Real.sqrt_nonneg 3)]
        simp [hwidth.ne']
      rw [Cornerwise, Point.spread, add_sub_cancel_left, add_sub_cancel_left, hside]
      simp [hpos.height_pos.ne']

/-! ## Where edges meet outlines -/

/-- The boundary point towards a point outside a shape is no nearer to the centre than the outline.
-/
theorem gauge_boundaryPoint {kind : NodeKind} {c q : Point ℝ} (h : 1 < kind.gauge c q) :
    ∃ t ∈ Set.Icc (0 : ℝ) 1, boundaryPoint c q kind = c.between q t ∧ 1 ≤ kind.gauge c q * t ∧
      (kind.gauge c q * t = 1 ↔ kind.Cornerwise c q) := by
  have hfar : smallDistance ≤ c.distance q := by
    rw [smallDistance_real]
    linarith [kind.gauge_le_distance c q]
  have hpos : 0 < c.distance q := lt_of_lt_of_le (by norm_num [smallDistance_real]) hfar
  refine ⟨kind.share c q, kind.share_mem_Icc c q, boundaryPoint_of_far hfar kind, ?_⟩
  by_cases hkind : kind = .skinny
  · subst hkind
    have hinv : (skinny.gauge c q)⁻¹ ≤ 1 := inv_le_one_of_one_le₀ h.le
    rw [share, insideShare_skinny h.le, min_eq_left hinv, mul_inv_cancel₀ (by linarith)]
    exact ⟨le_refl 1, iff_of_true rfl trivial⟩
  · obtain ⟨hle, heq⟩ := distance_le_gauge_mul hkind c q
    rw [share, insideShare_of_ne_skinny hkind, ← unit_width, ← heq]
    rcases le_total kind.unit.width (c.distance q) with hout | hin
    · rw [min_eq_left ((div_le_one hpos).mpr hout), ← mul_div_assoc, le_div_iff₀ hpos, one_mul,
        div_eq_one_iff_eq hpos.ne']
      exact ⟨hle, Iff.rfl⟩
    · -- the point itself is inside the circle, and so before the outline that is aimed at
      have hwidth := kind.unit_pos.width_pos
      rw [min_eq_right ((one_le_div hpos).mpr hin), mul_one]
      refine ⟨h.le, iff_of_false h.ne' ?_⟩
      have hbeyond := mul_lt_mul_of_pos_right h hwidth
      linarith

end NodeKind

open Drawing

section

variable {kind : NodeKind} {c q : Point ℝ}

/-- On the way from the centre of a node to a point outside its shape, the boundary point is never
inside the shape. It is on the outline, as it is drawn, unless the shape is a diamond or a hexagon
and the way does not go through a corner: then it is beyond the outline. -/
theorem boundaryPoint_mem_outline_iff (h : ¬ Within (outline (traceShape c kind)) q) :
    boundaryPoint c q kind ∈ c.segment q ∧
      (boundaryPoint c q kind ∈ outline (traceShape c kind) ↔ kind.Cornerwise c q) ∧
      (boundaryPoint c q kind ∉ outline (traceShape c kind) →
        ¬ Within (outline (traceShape c kind)) (boundaryPoint c q kind)) := by
  rw [kind.within_outline_iff c, not_le] at h
  obtain ⟨t, ht, hpoint, hreached, hcorner⟩ := NodeKind.gauge_boundaryPoint h
  have hgauge : kind.gauge c (boundaryPoint c q kind) = kind.gauge c q * t := by
    rw [hpoint, NodeKind.gauge_between_center, abs_of_nonneg ht.1]
  rw [kind.within_outline_iff c, kind.mem_outline_iff c, hgauge, not_le]
  exact ⟨⟨t, ht, hpoint.symm⟩, hcorner, fun hoff => lt_of_le_of_ne hreached (Ne.symm hoff)⟩

/-- The point at 100 units each way is not inside the diamond. -/
theorem not_within_diamond :
    ¬ Within (outline (traceShape ⟨0, 0⟩ .special)) (⟨100, 100⟩ : Point ℝ) := by
  rw [NodeKind.within_outline_iff]
  norm_num [NodeKind.gauge, NodeKind.unitGauge, NodeKind.unit, NodeKind.halfExtent]

/-- Towards it, the line leaves outside the drawn diamond. -/
theorem boundaryPoint_mem_outline_iff_diamond :
    let c : Point ℝ := ⟨0, 0⟩
    let q : Point ℝ := ⟨100, 100⟩
    ¬ Within (outline (traceShape c .special)) q ∧ boundaryPoint c q .special ∈ c.segment q ∧
      (boundaryPoint c q .special ∈ outline (traceShape c .special) ↔
        NodeKind.special.Cornerwise c q) ∧
      (boundaryPoint c q .special ∉ outline (traceShape c .special) →
        ¬ Within (outline (traceShape c .special)) (boundaryPoint c q .special)) :=
  ⟨not_within_diamond, boundaryPoint_mem_outline_iff not_within_diamond⟩

/-- Aslant from a diamond, an edge ends before the outline, which is at `(13, 13)`. -/
theorem boundaryPoint_misses_diamond :
    let c : Point ℝ := ⟨0, 0⟩
    let q : Point ℝ := ⟨100, 100⟩
    ¬ Within (outline (traceShape c .special)) q ∧
      (⟨13, 13⟩ : Point ℝ) ∈ c.segment q ∧
      (⟨13, 13⟩ : Point ℝ) ∈ outline (traceShape c .special) ∧
      boundaryPoint c q .special ∉ outline (traceShape c .special) := by
  intro c q
  have hout := not_within_diamond
  refine ⟨hout, ?_, ?_, ?_⟩
  · rw [mem_segment_iff]
    exact ⟨13 / 100, by norm_num, by norm_num [c, q], by norm_num [c, q]⟩
  · rw [NodeKind.mem_outline_iff]
    norm_num [c, NodeKind.gauge, NodeKind.unitGauge, NodeKind.unit, NodeKind.halfExtent]
  · rw [NodeKind.within_outline_iff, not_le] at hout
    obtain ⟨t, ht, hpoint, -, hcorner⟩ := NodeKind.gauge_boundaryPoint hout
    rw [NodeKind.mem_outline_iff, hpoint, NodeKind.gauge_between_center, abs_of_nonneg ht.1,
      hcorner]
    norm_num [c, q, NodeKind.Cornerwise]

end

end GraphBoard
