import GraphBoard.Proofs.View.Held
import GraphBoard.Proofs.Session.Run

/-!
# GraphBoard.Proofs.Session.Zoom

The zoom of a view, in exact arithmetic.

* `zoomAll_anchored` — zooming again and again about a screen point keeps the graph point that is
  there, at the limits of zoom too;
* `k_step_mem_zoomRange` — nothing that happens to a view leads out of these limits;
* `zoom_anchored_of_run` — so the zoom of a board in use is never zero, and neither is a length that
  has been divided by it.
-/

namespace GraphBoard

namespace View

variable {v w : View ℝ} {s : Point ℝ}

/-- The zoom lies between a tenth and ten. -/
theorem zoomRange_eq : zoomRange = Set.Icc (0.1 : ℝ) 10 := by
  norm_num [zoomRange, minZoom, maxZoom]

/-! ## Zooming about one point -/

section ZoomAll

variable {α : Type} [Scalar α]

/-- Zooms about one screen point by one factor after the other. -/
def zoomAll (v : View α) (s : Point α) (factors : List α) : View α :=
  factors.foldl (fun v factor => v.zoomAt s factor) v

end ZoomAll

/-- Zooms about a screen point keep the graph point under it, and the zoom within its limits. -/
theorem zoomAll_anchored (hk : v.transform.k ∈ zoomRange) (factors : List ℝ) :
    (v.zoomAll s factors).toGraph s = v.toGraph s ∧
      (v.zoomAll s factors).transform.k ∈ zoomRange := by
  induction factors generalizing v with
  | nil => exact ⟨rfl, hk⟩
  | cons factor factors ih =>
      obtain ⟨hpoint, hrange⟩ := ih (k_zoomAt_mem_zoomRange (v := v) (s := s) factor)
      exact ⟨hpoint.trans (toGraph_zoomAt hk factor), hrange⟩

/-! ## Steps of a view -/

/-- A press does not move the picture. -/
theorem transform_press {α : Type} [Scalar α] (v : View α) (e : Editor α) (p : Positions α)
    (s : Point α) (additive shift : Bool) :
    (v.press e p s additive shift).1.transform = v.transform := by
  rw [press]
  cases v.grabbedEdge? e p s with
  | some k => rfl
  | none =>
      cases v.nodeAt e.graph p s with
      | some k => cases shift <;> rfl
      | none =>
          cases v.edgeAt e.graph p s with
          | some k => rfl
          | none => cases shift <;> rfl

/-- A new view has a zoom within its limits. -/
theorem k_ofSize_mem_zoomRange (width height : ℝ) :
    (ofSize width height).transform.k ∈ zoomRange := by
  rw [zoomRange_eq]
  constructor <;> norm_num [ofSize]

/-- The wheel alone changes the zoom, and it keeps to the limits. -/
theorem k_step_mem_zoomRange (hk : v.transform.k ∈ zoomRange) (h : v.Step w) :
    w.transform.k ∈ zoomRange := by
  cases h with
  | press e p c additive shift =>
      rw [transform_press]
      exact hk
  | move g p c =>
      rw [k_move]
      exact hk
  | wheel c delta => exact k_zoomAt_mem_zoomRange _
  | release => exact hk
  | leave => exact hk
  | center p => exact hk
  | tick dt => exact hk
  | resize width height => exact hk

/-! ## Dividing by the zoom -/

/-- The zoom of a view is within its limits, so that it can be divided by, and so can what comes of
a length that is divided by it: the remainder that lets dashes flow is taken by the length of a dash
and a gap. -/
structure Divides (v : View ℝ) : Prop where
  k_mem : v.transform.k ∈ Set.Icc (0.1 : ℝ) 10
  k_ne_zero : v.transform.k ≠ 0
  length_ne_zero : ∀ length : ℝ, length ≠ 0 → length / v.transform.k ≠ 0
  period_ne_zero : (Drawing.EdgeStyle.ofView v).dash + (Drawing.EdgeStyle.ofView v).gap ≠ 0

/-- A zoom within its limits is not zero, and neither are the lengths of dashes that are divided by
it. -/
theorem divides_of_mem_zoomRange (hk : v.transform.k ∈ zoomRange) : v.Divides := by
  have hne : v.transform.k ≠ 0 := ne_of_gt (pos_of_mem_zoomRange hk)
  have hlength : ∀ length : ℝ, length ≠ 0 → length / v.transform.k ≠ 0 :=
    fun length hlength => div_ne_zero hlength hne
  have hperiod : (Drawing.EdgeStyle.ofView v).dash + (Drawing.EdgeStyle.ofView v).gap =
      12 / v.transform.k := by
    simp only [Drawing.EdgeStyle.ofView, ← add_div]
    norm_num
  refine ⟨zoomRange_eq ▸ hk, hne, hlength, ?_⟩
  rw [hperiod]
  exact hlength 12 (by norm_num)

end View

namespace Session

/-! ## Runs -/

/-- In every run the zoom stays within its limits. -/
theorem k_run_mem_zoomRange (editor : Editor ℝ) (layout : Layout) (page : Page ℝ)
    (sizing : Sizing ℝ) (inputs : List (Input ℝ)) {w : View ℝ}
    (hw : ((start editor layout page sizing).run inputs).view = some w) :
    w.transform.k ∈ View.zoomRange := by
  have hrun : ∀ w, ((start editor layout page sizing).run inputs).view = some w →
      w.transform.k ∈ View.zoomRange := by
    refine run_preserves (P := fun s => ∀ w, s.view = some w → w.transform.k ∈ View.zoomRange)
      (fun w hw => ?_) fun s hs i _ => ?_
    · obtain ⟨width, height, rfl⟩ := exists_of_view_start editor layout page sizing hw
      exact View.k_ofSize_mem_zoomRange width height
    · exact forall_view_handle View.k_ofSize_mem_zoomRange
        (fun _ _ hk hstep => View.k_step_mem_zoomRange hk hstep) hs
  exact hrun w hw

/-- Zooming about a screen point keeps the graph point there, whatever the factors and whether the
limits are met or not, and keeps to the limits.  Whatever is done with a board, its view stays
within them and can divide by its zoom. -/
theorem zoom_anchored_of_run {v : View ℝ} (hk : v.transform.k ∈ Set.Icc (0.1 : ℝ) 10)
    (s : Point ℝ) (factors : List ℝ) :
    ((v.zoomAll s factors).toGraph s = v.toGraph s ∧
      (v.zoomAll s factors).transform.k ∈ Set.Icc (0.1 : ℝ) 10) ∧
    ∀ (editor : Editor ℝ) (layout : Layout) (page : Page ℝ) (sizing : Sizing ℝ)
      (inputs : List (Input ℝ)) (w : View ℝ),
      ((start editor layout page sizing).run inputs).view = some w → w.Divides := by
  rw [← View.zoomRange_eq] at hk ⊢
  exact ⟨View.zoomAll_anchored hk factors, fun editor layout page sizing inputs w hw =>
    View.divides_of_mem_zoomRange (k_run_mem_zoomRange editor layout page sizing inputs hw)⟩

/-- The lone node on a canvas of 800 by 600 pixels. -/
noncomputable def lone : Session ℝ :=
  start View.loneBoard .stored
    { hasWindow := true
      innerWidth := none
      innerHeight := none
      parent := none
      corner := .origin
      drawable := true
      attached := true }
    { fullscreen := false, width := some 800.0, height := some 600.0 }

/-- The wheel is turned while the window comes and goes, and a node is brought to the middle. -/
noncomputable def loneInputs : List (Input ℝ) :=
  [.wheel ⟨300.0, 150.0⟩ 1, .window false, .wheel ⟨10.0, 20.0⟩ (-1), .reveal "a", .resize none none]

/-- Zooming in past the limit and out again, and a board in use. -/
theorem zoom_anchored_of_run_lone :
    View.loneView.transform.k ∈ Set.Icc (0.1 : ℝ) 10 ∧
      (View.loneView.zoomAll ⟨300, 150⟩ [100, 1 / 1000]).toGraph ⟨300, 150⟩ =
        View.loneView.toGraph ⟨300, 150⟩ ∧
      ∃ w, (lone.run loneInputs).view = some w ∧ w.Divides := by
  have hk : View.loneView.transform.k ∈ Set.Icc (0.1 : ℝ) 10 :=
    View.zoomRange_eq ▸ View.k_loneView_mem_zoomRange
  have hzoom := zoom_anchored_of_run hk ⟨300, 150⟩ [100, 1 / 1000]
  have hview : (lone.run loneInputs).view.isSome = true := rfl
  obtain ⟨w, hw⟩ := Option.isSome_iff_exists.mp hview
  refine ⟨hk, hzoom.1.1, w, hw, ?_⟩
  rw [lone] at hw
  exact hzoom.2 _ _ _ _ _ w hw

end Session

end GraphBoard
