import Mathlib.Analysis.SpecialFunctions.Trigonometric.Basic
import GraphBoard.Scalar

/-!
# GraphBoard.Proofs.Scalar.Exact

Exact arithmetic: the real numbers as the numbers of coordinates.  Nothing is rounded, and there is
no value that compares with nothing, so `clamp` always leads into its range.
-/

namespace GraphBoard

open Classical in
noncomputable instance : Scalar ℝ where
  decidableLE := inferInstance
  decidableLT := inferInstance
  ofNat n := n
  abs x := |x|
  sqrt := Real.sqrt
  floor x := ⌊x⌋
  round x := if 0 ≤ x then ⌊x + 1 / 2⌋ else ⌈x - 1 / 2⌉
  rem x y := x - y * if 0 ≤ x / y then ⌊x / y⌋ else ⌈x / y⌉
  pi := Real.pi
  cos := Real.cos
  sin := Real.sin
  toNat x := ⌊x⌋₊

namespace Scalar

@[simp] theorem abs_real (x : ℝ) : Scalar.abs x = |x| := rfl

@[simp] theorem sqrt_real (x : ℝ) : Scalar.sqrt x = √x := rfl

@[simp] theorem min_real (x y : ℝ) : Scalar.min x y = Min.min x y := by
  rw [Scalar.min, if_pos (le_refl x), min_comm, min_def]

@[simp] theorem max_real (x y : ℝ) : Scalar.max x y = Max.max x y := by
  rw [Scalar.max, if_pos (le_refl x), max_def]

/-- A number that is cut off is between the limits. -/
theorem clamp_mem_Icc {x lo hi : ℝ} (h : lo ≤ hi) : clamp x lo hi ∈ Set.Icc lo hi := by
  rw [clamp]
  split
  · exact ⟨le_refl lo, h⟩
  · split
    · exact ⟨h, le_refl hi⟩
    · constructor <;> linarith

end Scalar

end GraphBoard
