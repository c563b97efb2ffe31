import Mathlib.Analysis.SpecialFunctions.Complex.Arg
import GraphBoard.Drawing.Node
import GraphBoard.Proofs.View.Nearness

/-!
# GraphBoard.Proofs.Drawing.Path

The lines that a drawing context draws along a path, in exact arithmetic and in the units of the
calls.  `Path.step` says where a call leads the path, and which points the path takes in on its way;
`outline` is all of them.

* `outline_polygon`, `outline_rect` — lines from corner to corner and back;
* `outline_circle` — an arc of a full turn is the circle;
* `Within` — what such a line has inside, if the shape that it goes around is convex.
-/

namespace GraphBoard

/-- The points of the straight line from one point to another. -/
def Point.segment (a b : Point ℝ) : Set (Point ℝ) := a.between b '' Set.Icc 0 1

namespace Drawing

/-- The line that a path is being led along: where it began, which is where closing the path leads
back to, and where it has come to. -/
structure Pen where
  start : Point ℝ
  now : Point ℝ

/-- A path, with the line that it is being led along and the points that it has taken in. -/
structure Path where
  pen : Option Pen
  points : Set (Point ℝ)

/-- The point of a circle at an angle, which is measured clockwise from the right. -/
noncomputable def circlePoint (center : Point ℝ) (radius angle : ℝ) : Point ℝ :=
  ⟨center.x + radius * Real.cos angle, center.y + radius * Real.sin angle⟩

namespace Path

/-- No path. -/
def empty : Path := ⟨none, ∅⟩

/-- Begins a line at a point. -/
def moveTo (path : Path) (p : Point ℝ) : Path := { path with pen := some ⟨p, p⟩ }

/-- Leads the line straight to a point, or begins one there. -/
def lineTo (path : Path) (p : Point ℝ) : Path :=
  match path.pen with
  | none => path.moveTo p
  | some pen => ⟨some { pen with now := p }, path.points ∪ pen.now.segment p⟩

/-- Leads the line straight back to where it began. -/
def close (path : Path) : Path :=
  match path.pen with
  | none => path
  | some pen => path.lineTo pen.start

/-- Leads the line to a circle and along it, clockwise from one angle to another that is larger by
at most a full turn. -/
noncomputable def arc (path : Path) (center : Point ℝ) (radius start stop : ℝ) : Path :=
  let arrived := path.lineTo (circlePoint center radius start)
  { pen := arrived.pen.map fun pen => { pen with now := circlePoint center radius stop }
    points := arrived.points ∪ circlePoint center radius '' Set.Icc start stop }

/-- The path after a call. -/
noncomputable def step (path : Path) : Call ℝ → Path
  | .beginPath => empty
  | .moveTo p => path.moveTo p
  | .lineTo p => path.lineTo p
  | .closePath => path.close
  | .rect p width height =>
    ((((path.moveTo p).lineTo ⟨p.x + width, p.y⟩).lineTo ⟨p.x + width, p.y + height⟩).lineTo
      ⟨p.x, p.y + height⟩).close
  | .arc center radius start stop => path.arc center radius start stop
  | _ => path

end Path

/-- The points of the path that a list of calls ends with. -/
noncomputable def outline (calls : List (Call ℝ)) : Set (Point ℝ) :=
  (calls.foldl Path.step .empty).points

/-! ## Straight lines -/

/-- The points of the straight lines from a point to others, one after the other. -/
def sides : Point ℝ → List (Point ℝ) → Set (Point ℝ)
  | _, [] => ∅
  | a, b :: bs => a.segment b ∪ sides b bs

/-- Lines from point to point add the sides between these points to a path. -/
theorem foldl_lineTo (pen : Pen) (points : Set (Point ℝ)) (ps : List (Point ℝ)) :
    (ps.map Call.lineTo).foldl Path.step ⟨some pen, points⟩ =
      ⟨some { pen with now := ps.getLastD pen.now }, points ∪ sides pen.now ps⟩ := by
  induction ps generalizing pen points with
  | nil => simp [sides]
  | cons p ps ih =>
      rw [List.map_cons, List.foldl_cons, Path.step, Path.lineTo]
      rw [ih, sides, Set.union_assoc, List.getLastD_cons]

/-- The last point adds the last side. -/
theorem sides_concat (a : Point ℝ) (ps : List (Point ℝ)) (p : Point ℝ) :
    sides a (ps ++ [p]) = sides a ps ∪ (ps.getLastD a).segment p := by
  induction ps generalizing a with
  | nil => simp [sides]
  | cons b bs ih => rw [List.cons_append, sides, ih, sides, Set.union_assoc, List.getLastD_cons]

/-- A polygon is drawn along its sides. -/
theorem outline_polygon (p : Point ℝ) (ps : List (Point ℝ)) :
    outline (.beginPath :: polygon p ps) = sides p (ps ++ [p]) := by
  have hmove : Path.step (Path.step .empty .beginPath) (.moveTo p) = ⟨some ⟨p, p⟩, ∅⟩ := rfl
  rw [outline, polygon, List.cons_append, List.foldl_cons, List.foldl_cons, hmove,
    List.foldl_append, foldl_lineTo, sides_concat, Set.empty_union]
  rfl

/-- A rectangle is the polygon of its corners. -/
theorem outline_rect (p : Point ℝ) (width height : ℝ) :
    outline [.beginPath, .rect p width height] =
      outline (.beginPath :: polygon p
        [⟨p.x + width, p.y⟩, ⟨p.x + width, p.y + height⟩, ⟨p.x, p.y + height⟩]) := rfl

/-- A point of a line has the same share of both coordinates. -/
theorem mem_segment_iff {a b p : Point ℝ} :
    p ∈ a.segment b ↔ ∃ t, (0 ≤ t ∧ t ≤ 1) ∧
      p.x = a.x + (b.x - a.x) * t ∧ p.y = a.y + (b.y - a.y) * t := by
  rw [Point.segment, Set.mem_image]
  refine exists_congr fun t => and_congr Iff.rfl ?_
  rw [Point.between]
  constructor
  · rintro rfl
    exact ⟨rfl, rfl⟩
  · rintro ⟨hx, hy⟩
    cases p
    simp_all

/-! ## Circles -/

/-- The points of a circle are as far from the centre as its radius. -/
theorem distance_circlePoint (c : Point ℝ) {r : ℝ} (hr : 0 ≤ r) (angle : ℝ) :
    c.distance (circlePoint c r angle) = r := by
  have hsquare : c.squaredDistance (circlePoint c r angle) = r ^ 2 := by
    simp only [Point.squaredDistance, circlePoint]
    linear_combination r ^ 2 * Real.sin_sq_add_cos_sq angle
  rw [Point.distance_eq_sqrt, hsquare, Real.sqrt_sq hr]

/-- Every point of the plane is at some angle, as seen from another one. -/
theorem exists_circlePoint (c p : Point ℝ) :
    ∃ angle ∈ Set.Icc (0 : ℝ) (2 * Real.pi), circlePoint c (c.distance p) angle = p := by
  let z : ℂ := ⟨p.x - c.x, p.y - c.y⟩
  have hnorm : ‖z‖ = c.distance p := by
    rw [Complex.norm_def, Complex.normSq_apply]
    rfl
  have hx := Complex.norm_mul_cos_arg z
  have hy := Complex.norm_mul_sin_arg z
  rw [hnorm] at hx hy
  have hplace (angle : ℝ) (hcos : Real.cos angle = Real.cos z.arg)
      (hsin : Real.sin angle = Real.sin z.arg) : circlePoint c (c.distance p) angle = p := by
    rw [circlePoint, hcos, hsin, hx, hy]
    simp [z]
  have hlow := Complex.neg_pi_lt_arg z
  have hhigh := Complex.arg_le_pi z
  -- arguments go from half a turn below to half a turn above
  by_cases hsign : 0 ≤ z.arg
  · exact ⟨z.arg, ⟨hsign, by linarith⟩, hplace _ rfl rfl⟩
  · refine ⟨z.arg + 2 * Real.pi, ⟨by linarith, by linarith⟩, hplace _ ?_ ?_⟩
    · exact Real.cos_add_two_pi z.arg
    · exact Real.sin_add_two_pi z.arg

/-- An arc of a full turn is the circle. -/
theorem outline_circle (c : Point ℝ) {r : ℝ} (hr : 0 ≤ r) :
    outline [.beginPath, circle c r] = { p | c.distance p = r } := by
  have hzero : (0.0 : ℝ) = 0 := by norm_num
  have hturn : (turn : ℝ) = 2 * Real.pi := by norm_num [turn, Scalar.pi]
  have harc : outline [.beginPath, circle c r] = circlePoint c r '' Set.Icc 0 (2 * Real.pi) := by
    rw [← hzero, ← hturn]
    exact Set.empty_union _
  rw [harc]
  ext p
  constructor
  · rintro ⟨angle, -, rfl⟩
    exact distance_circlePoint c hr angle
  · rintro rfl
    exact exists_circlePoint c p

/-! ## Inside -/

/-- A point is between two points of a line. If the line goes around a convex shape, these are the
points of the shape. -/
def Within (line : Set (Point ℝ)) (p : Point ℝ) : Prop :=
  ∃ a ∈ line, ∃ b ∈ line, p ∈ a.segment b

end Drawing

end GraphBoard
