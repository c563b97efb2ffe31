import GraphBoard.Proofs.Scalar.Exact
import GraphBoard.Proofs.View.Gesture

/-!
# GraphBoard.Proofs.View.Pointer

What a move does to the transform, and which graph point it takes for the pointer's.

* `transform_move` — a move leaves the transform alone, unless it carries the picture along;
* `pointer_move` — the pointer is taken to be at the graph point that was under it before the
  picture was carried along;
* `pointer_eq_toGraph_move_iff` — so it is where it should be, unless the picture then shows another
  point there;
* `pointer_eq_toGraph_move_iff_transform` — that is, where graph points tell origins apart, as in
  exact arithmetic they do (`tellsOrigin_real`), as long as the move leaves the transform as it is.
-/

namespace GraphBoard.View

variable {α : Type} [Scalar α] {v w : View α} {g : Graph α} {p : Positions α} {s : Point α}

/-- The graph point at a screen point depends on the transform alone. -/
theorem toGraph_congr (h : v.transform = w.transform) (s : Point α) :
    v.toGraph s = w.toGraph s := by
  simp only [toGraph, h]

/-! ## Moving -/

/-- A move during a drag leads the node along. -/
theorem move_of_drag (hdrag : v.drag.active = true) : v.move g p s = (v.point s).dragTo s :=
  if_pos hdrag

/-- A move during a pan leads the picture along. -/
theorem move_of_pan (hdrag : v.drag.active = false) (hpan : v.pan.active = true) :
    v.move g p s = (v.point s).panTo s := by
  have hdrag' : ¬ (v.point s).drag.active = true := by simp [point, hdrag]
  rw [move, if_neg hdrag']
  exact if_pos hpan

/-- Another move takes note of the pointer, and of the node under it at most. -/
theorem move_of_neither (hdrag : v.drag.active = false) (hpan : v.pan.active = false) :
    v.move g p s = v.point s ∨
      v.move g p s = { v.point s with hover := (v.point s).nodeAt g p s } := by
  have hdrag' : ¬ (v.point s).drag.active = true := by simp [point, hdrag]
  have hpan' : ¬ (v.point s).pan.active = true := by simp [point, hpan]
  rw [move, if_neg hdrag', if_neg hpan']
  by_cases hdraft : (v.point s).draft.isNone = true
  · exact Or.inr (if_pos hdraft)
  · exact Or.inl (if_neg hdraft)

/-- Whether a move to a screen point carries the picture along. -/
def carries (v : View α) (s : Point α) : Bool :=
  !v.drag.active && v.pan.active && (v.pan.moved || isMovement v.pan.start s)

/-- The view with the picture carried along to a screen point. -/
def carried (v : View α) (s : Point α) : View α :=
  { v with transform :=
      ⟨v.pan.origin.x + (s.x - v.pan.start.x), v.pan.origin.y + (s.y - v.pan.start.y),
        v.transform.k⟩ }

/-- A drag does not move the picture. -/
theorem transform_dragTo : (v.dragTo s).transform = v.transform := by
  rw [dragTo]
  split <;> rfl

/-- A pan moves the picture once it has become a movement. -/
theorem transform_panTo_point : ((v.point s).panTo s).transform =
    if v.pan.moved || isMovement v.pan.start s then (v.carried s).transform else v.transform := by
  rw [panTo]
  exact apply_ite View.transform _ _ _

/-- A move changes the transform only where it carries the picture along. -/
theorem transform_move : (v.move g p s).transform =
    if v.carries s then (v.carried s).transform else v.transform := by
  cases hdrag : v.drag.active with
  | true => simp [move_of_drag hdrag, transform_dragTo, carries, hdrag, point]
  | false =>
      cases hpan : v.pan.active with
      | true => simp [move_of_pan hdrag hpan, transform_panTo_point, carries, hdrag, hpan]
      | false =>
          have hkept : ¬ v.carries s = true := by simp [carries, hpan]
          rw [if_neg hkept]
          cases move_of_neither (g := g) (p := p) (s := s) hdrag hpan with
          | inl h => rw [h]; rfl
          | inr h => rw [h]; rfl

/-- A move does not zoom. -/
theorem k_move : (v.move g p s).transform.k = v.transform.k := by
  rw [transform_move]
  split <;> rfl

/-! ## The pointer -/

theorem pointer_dragTo : (v.dragTo s).pointer = v.pointer := by
  rw [dragTo]
  split <;> rfl

theorem pointer_panTo : (v.panTo s).pointer = v.pointer := by
  rw [panTo]
  split <;> rfl

/-- The pointer is noted as the graph point before the picture is carried along. -/
theorem pointer_move : (v.move g p s).pointer = v.toGraph s :=
  part_move pointer (fun _ => pointer_dragTo) (fun _ => pointer_panTo) fun _ _ => rfl

/-- After a move the pointer is at the graph point that is under it, exactly unless the move
carried the picture along and the picture now shows another point there. -/
theorem pointer_eq_toGraph_move_iff :
    (v.move g p s).pointer = (v.move g p s).toGraph s ↔
      (v.carries s = true → (v.carried s).toGraph s = v.toGraph s) := by
  rw [pointer_move]
  cases hcarries : v.carries s with
  | false =>
      have hsame : (v.move g p s).transform = v.transform := by simp [transform_move, hcarries]
      simp [toGraph_congr hsame]
  | true =>
      have hnew : (v.move g p s).transform = (v.carried s).transform := by
        simp [transform_move, hcarries]
      simp [toGraph_congr hnew, eq_comm]

/-! ## Telling origins apart -/

/-- At a zoom, the graph coordinate at any pixel tells where the origin is. -/
def TellsOrigin (k : α) : Prop := ∀ x t u : α, (x - t) / k = (x - u) / k → t = u

/-- In exact arithmetic this is so at every zoom but zero. -/
theorem tellsOrigin_real {k : ℝ} (hk : k ≠ 0) : TellsOrigin k := by
  intro x t u h
  simpa [div_left_inj' hk] using h

/-- At a zoom that tells origins apart, two views that show the same graph point at a screen point
show the same at all. -/
theorem toGraph_eq_iff (hk : TellsOrigin v.transform.k) (hsame : w.transform.k = v.transform.k) :
    w.toGraph s = v.toGraph s ↔ w.transform = v.transform := by
  constructor
  · intro h
    simp only [toGraph, hsame, Point.mk.injEq] at h
    have hx := hk _ _ _ h.1
    have hy := hk _ _ _ h.2
    have hparts : w.transform = ⟨w.transform.x, w.transform.y, w.transform.k⟩ := rfl
    rw [hparts, hx, hy, hsame]
  · intro h
    exact toGraph_congr h s

/-- At a zoom that tells origins apart, the pointer is where it should be exactly if the move leaves
the picture where it is. -/
theorem pointer_eq_toGraph_move_iff_transform (hk : TellsOrigin v.transform.k) :
    (v.move g p s).pointer = (v.move g p s).toGraph s ↔
      (v.move g p s).transform = v.transform := by
  rw [pointer_move, eq_comm]
  exact toGraph_eq_iff hk k_move

end GraphBoard.View
