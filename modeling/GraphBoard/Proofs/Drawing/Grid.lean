import GraphBoard.Proofs.Scalar.Exact
import GraphBoard.Drawing.Picture

/-!
# GraphBoard.Proofs.Drawing.Grid

The walk along the lines of the grid comes to its end in exact arithmetic: each step goes its full
length, and the bound allows for more steps than fit between the two ends.
-/

namespace GraphBoard

namespace Grid

/-- The lines are 50 units apart. -/
theorem step_real : (step : ℝ) = 50 := by norm_num [step, Layout.gridSpacing]

/-- A walk comes to its end if its bound leads above the range. -/
theorem walk_isSome {stop x : ℝ} {bound : Nat} (h : stop < x + bound * step) :
    (walk stop bound x).isSome := by
  induction bound generalizing x with
  | zero =>
      have hend : ¬ x ≤ stop := by simpa using h
      rw [walk, if_neg hend]
      rfl
  | succ bound ih =>
      have hrest : stop < x + step + bound * step := by
        push_cast at h
        linarith
      rw [walk]
      split
      · rw [Option.isSome_map]
        exact ih hrest
      · rfl

/-- The bound on the steps leads above the range. -/
theorem lt_add_stepBound_mul (x stop : ℝ) : stop < x + stepBound x stop * step := by
  have hstep : (0 : ℝ) < step := by norm_num [step_real]
  have hfloor : (stop - x) / step < ⌊(stop - x) / step⌋₊ + 1 := Nat.lt_floor_add_one _
  have hcount : (⌊(stop - x) / step⌋₊ : ℝ) + 1 ≤ stepBound x stop := by
    have hbound : stepBound x stop = 2 * ⌊(stop - x) / step⌋₊ + 2 := rfl
    rw [hbound]
    push_cast
    linarith [Nat.cast_nonneg (α := ℝ) ⌊(stop - x) / step⌋₊]
  have hlength : stop - x < stepBound x stop * step :=
    (div_lt_iff₀ hstep).mp (lt_of_lt_of_le hfloor hcount)
  linarith

/-- The lines of a range come to an end. -/
theorem lines_isSome (start stop : ℝ) : (lines start stop).isSome :=
  walk_isSome (lt_add_stepBound_mul _ stop)

/-- In exact arithmetic the grid can always be drawn. -/
theorem draw_isSome (v : View ℝ) : (draw v).isSome := by
  obtain ⟨xs, hxs⟩ := Option.isSome_iff_exists.mp
    (lines_isSome (v.toGraph .origin).x (v.toGraph ⟨v.width, v.height⟩).x)
  obtain ⟨ys, hys⟩ := Option.isSome_iff_exists.mp
    (lines_isSome (v.toGraph .origin).y (v.toGraph ⟨v.width, v.height⟩).y)
  rw [draw, hxs, hys]
  split <;> rfl

end Grid

/-- In exact arithmetic the grid always comes to an end. -/
theorem Drawing.grid?_isSome (v : View ℝ) (l : Layout) : (grid? v l).isSome := by
  cases l with
  | snapToGrid => exact Grid.draw_isSome v
  | stored | verticalTree => rfl

end GraphBoard
