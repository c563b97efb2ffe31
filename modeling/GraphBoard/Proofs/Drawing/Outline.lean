import GraphBoard.Proofs.Drawing.Path

/-!
# GraphBoard.Proofs.Drawing.Outline

The outlines of nodes as they are drawn, in exact arithmetic.  Measured in its half width and its
half height a shape has size one, and for each kind of such a shape there is a formula, its
`unitGauge`, for how far a point is away from the centre in comparison with the outline.  It grows
in proportion to the way (`unitGauge_mul`) and over no detour (`unitGauge_add_le`), so shapes are
convex.

* `mem_sides_unitCorners`, `outline_traceShape` — the sides of a shape of size one, and the outline
  that is drawn as their image;
* `mem_outline_iff` — the outline is where the gauge is one;
* `within_outline_iff` — and inside are the points where it is at most one.
-/

namespace GraphBoard

/-! ## Lengths -/

/-- The length of the hypotenuse is the modulus of a complex number. -/
theorem hypot_eq_norm (x y : ℝ) : Scalar.hypot x y = ‖(⟨x, y⟩ : ℂ)‖ := by
  rw [Complex.norm_def, Complex.normSq_apply]
  rfl

/-- The hypotenuse grows with its sides. -/
theorem hypot_mul (x y t : ℝ) : Scalar.hypot (x * t) (y * t) = Scalar.hypot x y * |t| := by
  have hsquare : x * t * (x * t) + y * t * (y * t) = (x * x + y * y) * t ^ 2 := by ring
  rw [Scalar.hypot, Scalar.hypot, Scalar.sqrt_real, Scalar.sqrt_real, hsquare,
    Real.sqrt_mul' _ (sq_nonneg t), Real.sqrt_sq_eq_abs]

/-- The point that is some widths to the right of another one and some heights below it. -/
def Point.spread (c : Point ℝ) (e : HalfExtent ℝ) (p : Point ℝ) : Point ℝ :=
  ⟨c.x + e.width * p.x, c.y + e.height * p.y⟩

/-- To spread points keeps the shares of a line between them. -/
theorem Point.spread_between (c : Point ℝ) (e : HalfExtent ℝ) (a b : Point ℝ) (t : ℝ) :
    c.spread e (a.between b t) = (c.spread e a).between (c.spread e b) t := by
  simp only [spread, between, Point.mk.injEq]
  constructor <;> ring

/-- An extent that is not flat. -/
structure HalfExtent.Pos (e : HalfExtent ℝ) : Prop where
  width_pos : 0 < e.width
  height_pos : 0 < e.height

/-- Different points are spread to different points, if the extent is not flat. -/
theorem Point.spread_injective {e : HalfExtent ℝ} (he : e.Pos) (c : Point ℝ) :
    Function.Injective (c.spread e) := by
  intro a b h
  obtain ⟨hx, hy⟩ := Point.mk.inj h
  have hwidth := mul_left_cancel₀ he.width_pos.ne' (add_left_cancel hx)
  have hheight := mul_left_cancel₀ he.height_pos.ne' (add_left_cancel hy)
  cases a
  cases b
  simp_all

/-- The length of a step is that of the step in widths, if heights are counted as widths. -/
theorem Point.distance_spread (c : Point ℝ) {e : HalfExtent ℝ} (he : e.Pos) {s : ℝ}
    (hs : e.height = e.width * s) (p : Point ℝ) :
    c.distance (c.spread e p) = Scalar.hypot p.x (s * p.y) * e.width := by
  have hscaled := hypot_mul p.x (s * p.y) e.width
  rw [abs_of_pos he.width_pos, mul_comm p.x, mul_comm (s * p.y), ← mul_assoc, ← hs] at hscaled
  simp only [distance, spread, add_sub_cancel_left]
  exact hscaled

namespace Drawing

/-- A point is on a line exactly if it is when both are spread. -/
theorem spread_mem_segment_iff {e : HalfExtent ℝ} (he : e.Pos) (c a b p : Point ℝ) :
    c.spread e p ∈ (c.spread e a).segment (c.spread e b) ↔ p ∈ a.segment b := by
  have himage : (c.spread e a).segment (c.spread e b) = c.spread e '' a.segment b := by
    simp only [Point.segment, Set.image_image, Point.spread_between]
  rw [himage, (Point.spread_injective he c).mem_set_image]

/-- A point is on the sides of a shape exactly if it is when both are spread. -/
theorem spread_mem_sides_iff {e : HalfExtent ℝ} (he : e.Pos) (c p a : Point ℝ)
    (bs : List (Point ℝ)) :
    c.spread e p ∈ sides (c.spread e a) (bs.map (c.spread e)) ↔ p ∈ sides a bs := by
  induction bs generalizing a with
  | nil => exact Iff.rfl
  | cons b bs ih =>
      rw [List.map_cons, sides, sides, Set.mem_union, Set.mem_union, spread_mem_segment_iff he, ih]

end Drawing

namespace NodeKind

/-! ## Shapes by their gauges -/

/-- The lengths along the axes that count as one for a shape: half its width, and half its height
unless it is a hexagon, whose corners are on a circle. -/
noncomputable def unit (kind : NodeKind) : HalfExtent ℝ :=
  match kind with
  | .poly => ⟨kind.halfExtent.width, kind.halfExtent.height * √3⟩
  | _ => kind.halfExtent

/-- The width that a shape is measured by is half its own. -/
theorem unit_width (kind : NodeKind) : kind.unit.width = kind.halfExtent.width := by
  cases kind <;> rfl

/-- What a shape is measured by is not flat. -/
theorem unit_pos (kind : NodeKind) : kind.unit.Pos := by
  cases kind <;> constructor <;> norm_num [unit, halfExtent, nodeRadius]

/-- How much of the way from the centre of a shape of size one to its outline a step is: one if the
step leads to the outline, less if it ends before and more if it goes beyond. -/
noncomputable def unitGauge (kind : NodeKind) (x y : ℝ) : ℝ :=
  match kind with
  | .skinny => max |x| |y|
  | .special => |x| + |y|
  | .poly => max (|x| + |y|) (|y| + |y|)
  | .empty | .complexCircle => Scalar.hypot x y

/-- The gauge grows with the point. -/
theorem unitGauge_mul (kind : NodeKind) (x y t : ℝ) :
    kind.unitGauge (x * t) (y * t) = kind.unitGauge x y * |t| := by
  have ht := abs_nonneg t
  cases kind with
  | skinny => rw [unitGauge, unitGauge, max_mul_of_nonneg _ _ ht, abs_mul, abs_mul]
  | special => rw [unitGauge, unitGauge, abs_mul, abs_mul, add_mul]
  | poly =>
      rw [unitGauge, unitGauge, max_mul_of_nonneg _ _ ht, abs_mul, abs_mul, add_mul, add_mul]
  | empty | complexCircle => exact hypot_mul x y t

/-- The gauge of a sum is at most the sum of the gauges. -/
theorem unitGauge_add_le (kind : NodeKind) (x y x' y' : ℝ) :
    kind.unitGauge (x + x') (y + y') ≤ kind.unitGauge x y + kind.unitGauge x' y' := by
  have hx := abs_add_le x x'
  have hy := abs_add_le y y'
  cases kind with
  | skinny => exact (max_le_max hx hy).trans max_add_add_le_max_add_max
  | special =>
      rw [unitGauge, unitGauge, unitGauge]
      linarith
  | poly => refine (max_le_max ?_ ?_).trans max_add_add_le_max_add_max <;> linarith
  | empty | complexCircle =>
      rw [unitGauge, unitGauge, unitGauge, hypot_eq_norm, hypot_eq_norm, hypot_eq_norm]
      exact norm_add_le (⟨x, y⟩ : ℂ) ⟨x', y'⟩

/-- The gauge is at least each coordinate. -/
theorem abs_le_unitGauge (kind : NodeKind) (x y : ℝ) :
    |x| ≤ kind.unitGauge x y ∧ |y| ≤ kind.unitGauge x y := by
  have hx := abs_nonneg x
  have hy := abs_nonneg y
  cases kind with
  | skinny => exact ⟨le_max_left _ _, le_max_right _ _⟩
  | special => constructor <;> rw [unitGauge] <;> linarith
  | poly => constructor <;> refine le_trans ?_ (le_max_left _ _) <;> linarith
  | empty | complexCircle =>
      rw [unitGauge, hypot_eq_norm]
      exact ⟨Complex.abs_re_le_norm ⟨x, y⟩, Complex.abs_im_le_norm ⟨x, y⟩⟩

theorem unitGauge_nonneg (kind : NodeKind) (x y : ℝ) : 0 ≤ kind.unitGauge x y :=
  (abs_nonneg x).trans (kind.abs_le_unitGauge x y).1

/-- A point is seen from the centre of a diamond or a hexagon in the direction of a corner. Of other
shapes nothing is asked. -/
def Cornerwise (kind : NodeKind) (c q : Point ℝ) : Prop :=
  match kind with
  | .special => q.x = c.x ∨ q.y = c.y
  | .poly => q.y = c.y ∨ |q.y - c.y| = √3 * |q.x - c.x|
  | _ => True

/-- The corners of a shape of size one. -/
noncomputable def unitCorners : NodeKind → List (Point ℝ)
  | .skinny => [⟨-1, -1⟩, ⟨1, -1⟩, ⟨1, 1⟩, ⟨-1, 1⟩]
  | .special => [⟨0, -1⟩, ⟨1, 0⟩, ⟨0, 1⟩, ⟨-1, 0⟩]
  | .poly => [⟨1, 0⟩, ⟨0.5, 0.5⟩, ⟨-0.5, 0.5⟩, ⟨-1, 0⟩, ⟨-0.5, -0.5⟩, ⟨0.5, -0.5⟩]
  | .empty | .complexCircle => []

open Drawing

/-- The sides of a diamond are where the coordinates sum up to one. -/
theorem mem_sides_diamond (p : Point ℝ) :
    p ∈ sides ⟨0, -1⟩ [⟨1, 0⟩, ⟨0, 1⟩, ⟨-1, 0⟩, ⟨0, -1⟩] ↔ |p.x| + |p.y| = 1 := by
  simp only [sides, Set.mem_union, Set.mem_empty_iff_false, or_false, mem_segment_iff]
  constructor
  · rintro (⟨t, ⟨h0, h1⟩, hx, hy⟩ | ⟨t, ⟨h0, h1⟩, hx, hy⟩ | ⟨t, ⟨h0, h1⟩, hx, hy⟩ |
      ⟨t, ⟨h0, h1⟩, hx, hy⟩)
    all_goals
      rw [hx, hy]
      grind
  · intro h
    rcases abs_cases p.x with ⟨hx, _⟩ | ⟨hx, _⟩ <;> rcases abs_cases p.y with ⟨hy, _⟩ | ⟨hy, _⟩ <;>
      rw [hx, hy] at h
    · exact .inr (.inl ⟨p.y, by grind⟩)
    · exact .inl ⟨p.x, by grind⟩
    · exact .inr (.inr (.inl ⟨-p.x, by grind⟩))
    · exact .inr (.inr (.inr ⟨-p.y, by grind⟩))

/-- The sides of a box are where the greater coordinate is one. -/
theorem mem_sides_box (p : Point ℝ) :
    p ∈ sides ⟨-1, -1⟩ [⟨1, -1⟩, ⟨1, 1⟩, ⟨-1, 1⟩, ⟨-1, -1⟩] ↔ max |p.x| |p.y| = 1 := by
  simp only [sides, Set.mem_union, Set.mem_empty_iff_false, or_false, mem_segment_iff, max_eq_iff]
  constructor
  · rintro (⟨t, ⟨h0, h1⟩, hx, hy⟩ | ⟨t, ⟨h0, h1⟩, hx, hy⟩ | ⟨t, ⟨h0, h1⟩, hx, hy⟩ |
      ⟨t, ⟨h0, h1⟩, hx, hy⟩)
    all_goals
      rw [hx, hy]
      grind
  · rintro (⟨hside, hwithin⟩ | ⟨hside, hwithin⟩) <;> rw [hside, abs_le] at hwithin
    · obtain hone | hone := (abs_eq zero_le_one).mp hside
      · exact .inr (.inl ⟨(1 + p.y) / 2, by grind⟩)
      · exact .inr (.inr (.inr ⟨(1 - p.y) / 2, by grind⟩))
    · obtain hone | hone := (abs_eq zero_le_one).mp hside
      · exact .inr (.inr (.inl ⟨(1 - p.x) / 2, by grind⟩))
      · exact .inl ⟨(1 + p.x) / 2, by grind⟩

/-- The sides of a hexagon are where the greater of two sums is one. -/
theorem mem_sides_hexagon (p : Point ℝ) :
    p ∈ sides ⟨1, 0⟩ [⟨0.5, 0.5⟩, ⟨-0.5, 0.5⟩, ⟨-1, 0⟩, ⟨-0.5, -0.5⟩, ⟨0.5, -0.5⟩, ⟨1, 0⟩] ↔
      max (|p.x| + |p.y|) (|p.y| + |p.y|) = 1 := by
  have hhalf : (0.5 : ℝ) = 1 / 2 := by norm_num
  simp only [sides, Set.mem_union, Set.mem_empty_iff_false, or_false, mem_segment_iff, max_eq_iff,
    hhalf]
  constructor
  · rintro (⟨t, ⟨h0, h1⟩, hx, hy⟩ | ⟨t, ⟨h0, h1⟩, hx, hy⟩ | ⟨t, ⟨h0, h1⟩, hx, hy⟩ |
      ⟨t, ⟨h0, h1⟩, hx, hy⟩ | ⟨t, ⟨h0, h1⟩, hx, hy⟩ | ⟨t, ⟨h0, h1⟩, hx, hy⟩)
    all_goals
      rw [hx, hy]
      grind
  · rintro (⟨hside, hwithin⟩ | ⟨hside, hwithin⟩) <;> rw [hside] at hwithin
    · rcases abs_cases p.x with ⟨hx, _⟩ | ⟨hx, _⟩ <;>
        rcases abs_cases p.y with ⟨hy, _⟩ | ⟨hy, _⟩ <;> rw [hx, hy] at hside
      · exact .inl ⟨2 * p.y, by grind⟩
      · exact .inr (.inr (.inr (.inr (.inr ⟨1 + 2 * p.y, by grind⟩))))
      · exact .inr (.inr (.inl ⟨1 - 2 * p.y, by grind⟩))
      · exact .inr (.inr (.inr (.inl ⟨-2 * p.y, by grind⟩)))
    · rcases abs_cases p.y with ⟨hy, _⟩ | ⟨hy, _⟩ <;> rw [hy] at hside
      · exact .inr (.inl ⟨1 / 2 - p.x, by grind⟩)
      · exact .inr (.inr (.inr (.inr (.inl ⟨1 / 2 + p.x, by grind⟩))))

/-- The sides of a shape with corners are where its gauge is one. -/
theorem mem_sides_unitCorners {kind : NodeKind} {a : Point ℝ} {bs : List (Point ℝ)}
    (h : kind.unitCorners = a :: bs) (p : Point ℝ) :
    p ∈ sides a (bs ++ [a]) ↔ kind.unitGauge p.x p.y = 1 := by
  cases kind with
  | skinny => cases h; exact mem_sides_box p
  | special => cases h; exact mem_sides_diamond p
  | poly => cases h; exact mem_sides_hexagon p
  | empty | complexCircle => cases h

/-- A corner of the hexagon is spread from one with plain coordinates. -/
theorem hexagonCorner_eq (c : Point ℝ) {i : ℕ} {x y : ℝ} (hx : Real.cos (Real.pi / 3 * i) = x)
    (hy : Real.sin (Real.pi / 3 * i) = √3 * y) :
    hexagonCorner c NodeKind.poly.halfExtent i = c.spread NodeKind.poly.unit ⟨x, y⟩ := by
  have hsixth : (Scalar.pi / 3.0 : ℝ) = Real.pi / 3 := by norm_num [Scalar.pi]
  have hcos : Scalar.cos (Scalar.pi / 3.0 * Scalar.ofNat i) = x := by rwa [hsixth]
  have hsin : Scalar.sin (Scalar.pi / 3.0 * Scalar.ofNat i) = √3 * y := by rwa [hsixth]
  rw [hexagonCorner, hcos, hsin, ← mul_assoc]
  rfl

/-- The corners of a hexagon are on a circle, a sixth of a turn from one to the next. -/
theorem map_hexagonCorner (c : Point ℝ) :
    [0, 1, 2, 3, 4, 5].map (hexagonCorner c NodeKind.poly.halfExtent) =
      NodeKind.poly.unitCorners.map (c.spread NodeKind.poly.unit) := by
  have h2 : Real.pi / 3 * (2 : ℕ) = Real.pi - Real.pi / 3 := by push_cast; ring
  have h3 : Real.pi / 3 * (3 : ℕ) = Real.pi := by push_cast; ring
  have h4 : Real.pi / 3 * (4 : ℕ) = Real.pi / 3 + Real.pi := by push_cast; ring
  have h5 : Real.pi / 3 * (5 : ℕ) = 2 * Real.pi - Real.pi / 3 := by push_cast; ring
  have hcos := Real.cos_pi_div_three
  have hsin := Real.sin_pi_div_three
  have hhalf : (0.5 : ℝ) = 1 / 2 := by norm_num
  simp only [List.map_cons, List.map_nil, unitCorners, List.cons.injEq, and_true, hhalf]
  refine ⟨hexagonCorner_eq c ?_ ?_, hexagonCorner_eq c ?_ ?_, hexagonCorner_eq c ?_ ?_,
    hexagonCorner_eq c ?_ ?_, hexagonCorner_eq c ?_ ?_, hexagonCorner_eq c ?_ ?_⟩
  · simp
  · simp
  · rw [Nat.cast_one, mul_one, hcos]
  · rw [Nat.cast_one, mul_one, hsin]; ring
  · rw [h2, Real.cos_pi_sub, hcos]
  · rw [h2, Real.sin_pi_sub, hsin]; ring
  · rw [h3, Real.cos_pi]
  · rw [h3, Real.sin_pi, mul_zero]
  · rw [h4, Real.cos_add_pi, hcos]
  · rw [h4, Real.sin_add_pi, hsin]; ring
  · rw [h5, Real.cos_two_pi_sub, hcos]
  · rw [h5, Real.sin_two_pi_sub, hsin]; ring

/-- The outline of a shape that has corners. -/
theorem outline_traceShape {kind : NodeKind} {a : Point ℝ} {bs : List (Point ℝ)}
    (h : kind.unitCorners = a :: bs) (c : Point ℝ) :
    outline (traceShape c kind) =
      sides (c.spread kind.unit a) ((bs ++ [a]).map (c.spread kind.unit)) := by
  rw [List.map_append, List.map_singleton, ← outline_polygon]
  cases kind with
  | skinny =>
      cases h
      have htwice (x r : ℝ) : x - r + r * 2.0 = x + r := by linarith [mul_two r]
      rw [traceShape, outline_rect]
      simp only [htwice]
      simp [Point.spread, unit, sub_eq_add_neg]
  | special =>
      cases h
      simp [traceShape, Point.spread, unit, sub_eq_add_neg]
  | poly =>
      have hcorners := map_hexagonCorner c
      rw [h] at hcorners
      obtain ⟨hfirst, hothers⟩ := List.cons_eq_cons.mp hcorners
      rw [traceShape, hfirst, hothers]
  | empty | complexCircle => cases h

/-- The outline of a shape is where its gauge is one. -/
theorem spread_mem_outline_iff (kind : NodeKind) (c p : Point ℝ) :
    c.spread kind.unit p ∈ outline (traceShape c kind) ↔ kind.unitGauge p.x p.y = 1 := by
  cases hcorners : kind.unitCorners with
  | cons a bs =>
      rw [outline_traceShape hcorners, spread_mem_sides_iff kind.unit_pos,
        mem_sides_unitCorners hcorners]
  | nil =>
      -- only round shapes have no corners
      have hwidth := kind.unit_pos.width_pos
      have hround : outline (traceShape c kind) = { q | c.distance q = kind.unit.width } ∧
          c.distance (c.spread kind.unit p) = kind.unitGauge p.x p.y * kind.unit.width := by
        cases kind with
        | skinny | special | poly => cases hcorners
        | empty | complexCircle =>
            refine ⟨outline_circle c hwidth.le, ?_⟩
            rw [c.distance_spread (unit_pos _) (mul_one _).symm, one_mul]
            rfl
      obtain ⟨houtline, hdistance⟩ := hround
      rw [houtline, Set.mem_ofPred_eq, hdistance]
      exact mul_eq_right₀ hwidth.ne'

/-- How many times as far from the centre of a shape as its outline a point is. -/
noncomputable def gauge (kind : NodeKind) (c p : Point ℝ) : ℝ :=
  kind.unitGauge ((p.x - c.x) / kind.unit.width) ((p.y - c.y) / kind.unit.height)

variable (kind : NodeKind) (c : Point ℝ)

theorem gauge_nonneg (p : Point ℝ) : 0 ≤ kind.gauge c p := kind.unitGauge_nonneg _ _

/-- Every point is spread from one that has the same gauge. -/
theorem exists_spread (p : Point ℝ) :
    ∃ q, p = c.spread kind.unit q ∧ kind.gauge c p = kind.unitGauge q.x q.y := by
  have hwidth := kind.unit_pos.width_pos.ne'
  have hheight := kind.unit_pos.height_pos.ne'
  refine ⟨⟨(p.x - c.x) / kind.unit.width, (p.y - c.y) / kind.unit.height⟩, ?_, rfl⟩
  rw [Point.spread, mul_div_cancel₀ _ hwidth, mul_div_cancel₀ _ hheight]
  simp

/-- The outline of a shape, as it is drawn, is where the gauge is one. -/
theorem mem_outline_iff (p : Point ℝ) :
    p ∈ outline (traceShape c kind) ↔ kind.gauge c p = 1 := by
  obtain ⟨q, rfl, hgauge⟩ := kind.exists_spread c p
  rw [spread_mem_outline_iff, hgauge]

/-- Along a ray from the centre the gauge grows with the share of the way. -/
theorem gauge_between_center (p : Point ℝ) (t : ℝ) :
    kind.gauge c (c.between p t) = kind.gauge c p * |t| := by
  rw [gauge, gauge, ← unitGauge_mul]
  simp only [Point.between, add_sub_cancel_left, mul_div_right_comm]

/-- Between two points the gauge is at most what lies between theirs. -/
theorem gauge_between_le (a b : Point ℝ) {t : ℝ} (h0 : 0 ≤ t) (h1 : t ≤ 1) :
    kind.gauge c (a.between b t) ≤ kind.gauge c a * (1 - t) + kind.gauge c b * t := by
  have hx : (a.x + (b.x - a.x) * t - c.x) / kind.unit.width =
      (a.x - c.x) / kind.unit.width * (1 - t) + (b.x - c.x) / kind.unit.width * t := by
    ring
  have hy : (a.y + (b.y - a.y) * t - c.y) / kind.unit.height =
      (a.y - c.y) / kind.unit.height * (1 - t) + (b.y - c.y) / kind.unit.height * t := by
    ring
  have hsum := kind.unitGauge_add_le ((a.x - c.x) / kind.unit.width * (1 - t))
    ((a.y - c.y) / kind.unit.height * (1 - t)) ((b.x - c.x) / kind.unit.width * t)
    ((b.y - c.y) / kind.unit.height * t)
  rw [unitGauge_mul, unitGauge_mul, abs_of_nonneg h0, abs_of_nonneg (sub_nonneg.mpr h1)] at hsum
  simp only [gauge, Point.between, hx, hy]
  exact hsum

variable {kind c} in
/-- Only the centre has gauge zero. -/
theorem eq_center_of_gauge_eq_zero {p : Point ℝ} (h : kind.gauge c p = 0) : p = c := by
  obtain ⟨q, rfl, hgauge⟩ := kind.exists_spread c p
  obtain ⟨hx, hy⟩ := kind.abs_le_unitGauge q.x q.y
  rw [← hgauge, h] at hx hy
  rw [Point.spread, abs_nonpos_iff.mp hx, abs_nonpos_iff.mp hy]
  simp

/-- Every point is at its gauge on the way from the centre to a point of the outline. -/
theorem exists_mem_outline (p : Point ℝ) :
    ∃ q ∈ outline (traceShape c kind), p = c.between q (kind.gauge c p) := by
  by_cases hzero : kind.gauge c p = 0
  · -- the centre is on the way to every point
    refine ⟨c.spread kind.unit ⟨1, 0⟩, ?_, ?_⟩
    · rw [spread_mem_outline_iff]
      cases kind <;> simp [unitGauge, Scalar.hypot]
    · rw [hzero, eq_center_of_gauge_eq_zero hzero]
      simp [Point.between]
  · have hnonneg := kind.gauge_nonneg c p
    refine ⟨c.between p (kind.gauge c p)⁻¹, ?_, ?_⟩
    · rw [mem_outline_iff, gauge_between_center, abs_of_nonneg (inv_nonneg.mpr hnonneg)]
      exact mul_inv_cancel₀ hzero
    · simp only [Point.between, add_sub_cancel_left, inv_mul_cancel_right₀ hzero, add_sub_cancel]

/-- The points of a shape are those whose gauge is at most one. -/
theorem within_outline_iff (p : Point ℝ) :
    Within (outline (traceShape c kind)) p ↔ kind.gauge c p ≤ 1 := by
  constructor
  · rintro ⟨a, ha, b, hb, t, ⟨h0, h1⟩, rfl⟩
    rw [mem_outline_iff] at ha hb
    have hconvex := kind.gauge_between_le c a b h0 h1
    rwa [ha, hb, one_mul, one_mul, sub_add_cancel] at hconvex
  · intro h
    obtain ⟨q, hq, hp⟩ := kind.exists_mem_outline c p
    have hnonneg := kind.gauge_nonneg c p
    -- the point of the outline on the other side of the centre
    refine ⟨q, hq, c.between q (-1), ?_, (1 - kind.gauge c p) / 2, ⟨?_, ?_⟩, ?_⟩
    · rw [mem_outline_iff, gauge_between_center, (kind.mem_outline_iff c q).mp hq]
      norm_num
    · linarith
    · linarith
    · generalize kind.gauge c p = t at hp
      rw [hp]
      simp only [Point.between, Point.mk.injEq]
      constructor <;> ring

end NodeKind

end GraphBoard
