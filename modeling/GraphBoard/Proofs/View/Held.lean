import GraphBoard.Proofs.Scalar.Exact
import GraphBoard.Proofs.View.Gesture
import GraphBoard.Proofs.View.Pointer

/-!
# GraphBoard.Proofs.View.Held

What is under the pointer while a press is held, in exact arithmetic.  A drag and a pan measure how
far the pointer has gone from the screen point of the press, in pixels, while the wheel can change
how many pixels a graph unit has.  So what was grabbed stays under the pointer only as long as the
wheel does not interfere, and `held_iff` says exactly how:

* a node keeps its place to the pointer exactly if the screen point of the press still shows the
  graph point that it showed at the press;
* the picture keeps its place to the pointer exactly if the zoom is what it was at the press, or
  the press was on the graph's origin.

Turning the wheel at the point of the press does no harm to a drag (`held_of_wheel_at_press`); at
another point it does, and any turn that changes the zoom harms a pan (`slipped`).
-/

namespace GraphBoard

/-- How far a point is from another one. -/
instance {α : Type} [Scalar α] : Sub (Point α) := ⟨fun p q => ⟨p.x - q.x, p.y - q.y⟩⟩

/-- The same point is left only by the same difference. -/
theorem Point.sub_eq_sub_iff {a b c : Point ℝ} : a - b = a - c ↔ b = c := by
  constructor
  · intro h
    have hx : a.x - b.x = a.x - c.x := congrArg Point.x h
    have hy : a.y - b.y = a.y - c.y := congrArg Point.y h
    cases b
    cases c
    simp_all
  · intro h
    rw [h]

/-- What can happen to a view between a press and its release. -/
inductive Motion (α : Type) where
  /-- The pointer moves. -/
  | move (g : Graph α) (p : Positions α) (s : Point α)
  /-- The wheel is turned. -/
  | wheel (s : Point α) (delta : α)

/-- Whether the wheel, if this turns it, is turned at a screen point. -/
def Motion.WheelAt {α : Type} (s : Point α) : Motion α → Prop
  | .move _ _ _ => True
  | .wheel q _ => q = s

namespace View

/-! ## What a press fixes -/

/-- What a press fixes for the time that it is held. -/
structure Grip (α : Type) where
  /-- Whether a node is dragged. -/
  dragging : Bool
  /-- The screen point of the press on the node. -/
  dragStart : Point α
  /-- Where the node was at the press. -/
  nodeStart : Point α
  /-- Whether the background is dragged. -/
  panning : Bool
  /-- The screen point of the press on the background. -/
  panStart : Point α
  /-- Where the graph's origin was at the press. -/
  origin : Point α

section Grip

variable {α : Type} [Scalar α] {v : View α} {g : Graph α} {p : Positions α} {s c : Point α}

/-- What the presses that are held have fixed. -/
def grip (v : View α) : Grip α :=
  ⟨v.drag.active, v.drag.start, v.drag.nodeStart, v.pan.active, v.pan.start, v.pan.origin⟩

/-- The view after a motion. -/
def follow (v : View α) : Motion α → View α
  | .move g p s => v.move g p s
  | .wheel s delta => v.wheel s delta

/-- The view after one motion after the other. -/
def followAll (v : View α) (motions : List (Motion α)) : View α := motions.foldl follow v

theorem grip_dragTo : (v.dragTo s).grip = v.grip := by
  rw [dragTo]
  split <;> rfl

theorem grip_panTo : (v.panTo s).grip = v.grip := by
  rw [panTo]
  split <;> rfl

theorem grip_move : (v.move g p s).grip = v.grip :=
  part_move grip (fun _ => grip_dragTo) (fun _ => grip_panTo) fun _ _ => rfl

/-- A motion fixes nothing anew. -/
theorem grip_follow (m : Motion α) : (v.follow m).grip = v.grip := by
  cases m with
  | move g p s => exact grip_move
  | wheel s delta => rfl

/-- Nothing is fixed anew until the release. -/
theorem grip_followAll (motions : List (Motion α)) : (v.followAll motions).grip = v.grip := by
  induction motions generalizing v with
  | nil => rfl
  | cons m motions ih =>
      have hrest : ((v.follow m).followAll motions).grip = (v.follow m).grip := ih
      rw [grip_follow] at hrest
      exact hrest

end Grip

/-! ## Presses -/

section Press

variable {α : Type} [Scalar α] {v : View α} {e : Editor α} {p : Positions α} {s : Point α}
  {shift : Bool}

/-- A press that starts a drag does so with some node. -/
theorem press_of_starts?_drag (additive : Bool) (h : v.starts? e p s shift = some .drag) :
    ∃ k, (v.press e p s additive shift).1 = v.startDrag p k s := by
  rw [starts?] at h
  rw [press]
  cases hgrab : v.grabbedEdge? e p s with
  | some k => simp [hgrab] at h
  | none =>
      cases hnode : v.nodeAt e.graph p s with
      | some k =>
          cases shift with
          | true => simp [hgrab, hnode] at h
          | false => exact ⟨k, rfl⟩
      | none =>
          cases hedge : v.edgeAt e.graph p s <;> cases shift <;> simp [hgrab, hnode, hedge] at h

/-- A press that starts a pan does nothing else. -/
theorem press_of_starts?_pan (additive : Bool) (h : v.starts? e p s shift = some .pan) :
    (v.press e p s additive shift).1 = v.startPan s := by
  rw [starts?] at h
  rw [press]
  cases hgrab : v.grabbedEdge? e p s with
  | some k => simp [hgrab] at h
  | none =>
      cases hnode : v.nodeAt e.graph p s with
      | some k => cases shift <;> simp [hgrab, hnode] at h
      | none =>
          cases hedge : v.edgeAt e.graph p s with
          | some k => simp [hgrab, hnode, hedge] at h
          | none =>
              cases shift with
              | true => simp [hgrab, hnode, hedge] at h
              | false => rfl

end Press

/-! ## Following -/

section Follow

variable {α : Type} [Scalar α] {v : View α} {g : Graph α} {p : Positions α} {s c : Point α}

/-- Where a node is after a move that it follows. -/
theorem current_dragTo (hmoved : (v.dragTo c).drag.moved = true) : (v.dragTo c).drag.current =
    ⟨v.drag.nodeStart.x + (c.x - v.drag.start.x) / v.transform.k,
      v.drag.nodeStart.y + (c.y - v.drag.start.y) / v.transform.k⟩ := by
  rw [dragTo] at hmoved ⊢
  by_cases h : (v.drag.moved || isMovement v.drag.start c) = true
  · rw [if_pos h]
  · rw [if_neg h] at hmoved
    simp [hmoved] at h

/-- A move does not move the picture while a node is dragged. -/
theorem transform_move_of_drag (hdrag : v.drag.active = true) :
    (v.move g p s).transform = v.transform := by
  rw [move_of_drag hdrag]
  exact transform_dragTo

/-- A move does not touch the pan while a node is dragged. -/
theorem pan_move (hdrag : v.drag.active = true) : (v.move g p s).pan = v.pan := by
  rw [move_of_drag hdrag, dragTo]
  split <;> rfl

/-- No motion touches the pan while a node is dragged. -/
theorem pan_follow (hdrag : v.drag.active = true) (m : Motion α) : (v.follow m).pan = v.pan := by
  cases m with
  | move g p s => exact pan_move hdrag
  | wheel s delta => rfl

/-- A motion does not end the drag. -/
theorem drag_active_follow (m : Motion α) : (v.follow m).drag.active = v.drag.active :=
  congrArg Grip.dragging (grip_follow m)

/-- The picture follows no pointer that drags a node. -/
theorem pan_followAll (hdrag : v.drag.active = true) (motions : List (Motion α)) :
    (v.followAll motions).pan = v.pan := by
  induction motions generalizing v with
  | nil => rfl
  | cons m motions ih =>
      have hstill : (v.follow m).drag.active = true := (drag_active_follow m).trans hdrag
      have hpan : (v.follow m).pan = v.pan := pan_follow hdrag m
      exact (ih hstill).trans hpan

/-- A move that goes far enough makes the drag a movement. -/
theorem moved_move (hdrag : v.drag.active = true) (h : isMovement v.drag.start c = true) :
    (v.move g p c).drag.moved = true := by
  have hfar : ((v.point c).drag.moved || isMovement (v.point c).drag.start c) = true := by
    simp [point, h]
  rw [move_of_drag hdrag, dragTo, if_pos hfar]

/-- A move that leaves a pan moved has carried the picture along. -/
theorem carries_of_pan_moved (hdrag : v.drag.active = false) (hpan : v.pan.active = true)
    (hmoved : (v.move g p c).pan.moved = true) : v.carries c = true := by
  rw [move_of_pan hdrag hpan, panTo] at hmoved
  by_cases h : ((v.point c).pan.moved || isMovement (v.point c).pan.start c) = true
  · simpa [carries, hdrag, hpan, point] using h
  · rw [if_neg h] at hmoved
    simp [hmoved] at h

end Follow

/-! ## Exact arithmetic -/

variable {v : View ℝ} {g : Graph ℝ} {p : Positions ℝ} {s c : Point ℝ}

/-- The range of the zoom. -/
def zoomRange : Set ℝ := Set.Icc minZoom maxZoom

/-- A zoom within its limits is positive. -/
theorem pos_of_mem_zoomRange {k : ℝ} (hk : k ∈ zoomRange) : 0 < k := by
  have hmin : (0 : ℝ) < minZoom := by norm_num [minZoom]
  exact lt_of_lt_of_le hmin hk.1

/-- A zoom by any factor stays within the limits. -/
theorem k_zoomAt_mem_zoomRange (factor : ℝ) : (v.zoomAt s factor).transform.k ∈ zoomRange := by
  have hrange : (minZoom : ℝ) ≤ maxZoom := by norm_num [minZoom, maxZoom]
  exact Scalar.clamp_mem_Icc hrange

/-- A motion keeps the zoom within its limits. -/
theorem k_follow_mem_zoomRange (hk : v.transform.k ∈ zoomRange) (m : Motion ℝ) :
    (v.follow m).transform.k ∈ zoomRange := by
  cases m with
  | move g p s =>
      rw [follow, k_move]
      exact hk
  | wheel s delta => exact k_zoomAt_mem_zoomRange _

/-- Zooming leaves the graph point under the pointer where it is. -/
theorem toGraph_zoomAt (hk : v.transform.k ∈ zoomRange) (factor : ℝ) :
    (v.zoomAt s factor).toGraph s = v.toGraph s := by
  have hold : v.transform.k ≠ 0 := ne_of_gt (pos_of_mem_zoomRange hk)
  have hnew : (v.zoomAt s factor).transform.k ≠ 0 :=
    ne_of_gt (pos_of_mem_zoomRange (k_zoomAt_mem_zoomRange factor))
  simp only [toGraph, zoomAt, Point.mk.injEq] at hnew ⊢
  constructor
  · field_simp
    ring
  · field_simp
    ring

/-- While a node is dragged, turns of the wheel at one point keep the graph point there. -/
theorem toGraph_followAll (hk : v.transform.k ∈ zoomRange) (hdrag : v.drag.active = true)
    {motions : List (Motion ℝ)} (hwheel : ∀ m ∈ motions, m.WheelAt s) :
    (v.followAll motions).toGraph s = v.toGraph s := by
  induction motions generalizing v with
  | nil => rfl
  | cons m motions ih =>
      have hrest : ((v.follow m).followAll motions).toGraph s = (v.follow m).toGraph s :=
        ih (k_follow_mem_zoomRange hk m) ((drag_active_follow m).trans hdrag)
          fun m' hm' => hwheel m' (List.mem_cons_of_mem m hm')
      have hfirst : (v.follow m).toGraph s = v.toGraph s := by
        cases m with
        | move g p c => exact toGraph_congr (transform_move_of_drag hdrag) s
        | wheel q delta =>
            have hq : q = s := hwheel _ List.mem_cons_self
            subst hq
            exact toGraph_zoomAt hk _
      exact hrest.trans hfirst

/-- The dragged node is as far from the pointer as it was at the press from the graph point that
the screen point of the press shows now. -/
theorem current_sub_toGraph_move (hdrag : v.drag.active = true)
    (hmoved : (v.move g p c).drag.moved = true) :
    (v.move g p c).drag.current - (v.move g p c).toGraph c =
      v.drag.nodeStart - (v.move g p c).toGraph v.drag.start := by
  rw [move_of_drag hdrag] at hmoved ⊢
  have htransform : ((v.point c).dragTo c).transform = v.transform := transform_dragTo
  rw [current_dragTo hmoved, toGraph_congr htransform, toGraph_congr htransform]
  show Point.mk _ _ = Point.mk _ _
  simp only [toGraph, point, Point.mk.injEq]
  constructor <;> ring

/-- The picture is carried along so that the pointer is over the graph point that is as far from the
origin as the press was, at the zoom of now. -/
theorem toGraph_move_of_carries (hcarries : v.carries c = true) : (v.move g p c).toGraph c =
    ⟨(v.pan.start.x - v.pan.origin.x) / v.transform.k,
      (v.pan.start.y - v.pan.origin.y) / v.transform.k⟩ := by
  have htransform : (v.move g p c).transform = (v.carried c).transform := by
    simp [transform_move, hcarries]
  rw [toGraph_congr htransform]
  simp only [toGraph, carried, Point.mk.injEq]
  constructor <;> ring

/-- Only the same divisor gives the same quotient, if what is divided is not zero. -/
theorem eq_of_div_eq_div {a k l : ℝ} (ha : a ≠ 0) (h : a / k = a / l) : k = l := by
  rw [div_eq_mul_inv, div_eq_mul_inv] at h
  exact inv_injective (mul_left_cancel₀ ha h)

/-- Two zooms show the same graph point at an offset from the origin only if they are equal or the
offset is nothing. -/
theorem div_eq_div_iff_or {a b k l : ℝ} (hl : l ≠ 0) :
    (⟨a / k, b / k⟩ : Point ℝ) = ⟨a / l, b / l⟩ ↔ k = l ∨ (⟨a / l, b / l⟩ : Point ℝ) = .origin := by
  have horigin : (⟨a / l, b / l⟩ : Point ℝ) = .origin ↔ a = 0 ∧ b = 0 := by
    norm_num [Point.origin, hl]
  rw [horigin, Point.mk.injEq]
  constructor
  · intro h
    obtain ⟨ha, hb⟩ := h
    by_cases hkl : k = l
    · exact Or.inl hkl
    · have ha' : a = 0 := by
        by_contra hne
        exact hkl (eq_of_div_eq_div hne ha)
      have hb' : b = 0 := by
        by_contra hne
        exact hkl (eq_of_div_eq_div hne hb)
      exact Or.inr ⟨ha', hb'⟩
  · intro h
    obtain rfl | ⟨rfl, rfl⟩ := h
    · exact ⟨rfl, rfl⟩
    · simp

section Held

variable {e : Editor ℝ} {shift : Bool} (additive : Bool) (motions : List (Motion ℝ)) (g : Graph ℝ)
  (q : Positions ℝ) (c : Point ℝ)

/-- While a press on a node is held, the node is as far from the pointer as it was at the press from
the graph point that the screen point of the press shows now. -/
theorem current_sub_toGraph_of_starts? (hstarts : v.starts? e p s shift = some .drag) :
    let v₁ := (v.press e p s additive shift).1
    let v₂ := (v₁.followAll motions).move g q c
    v₂.drag.moved = true → v₂.drag.current - v₂.toGraph c = v₁.drag.nodeStart - v₂.toGraph s := by
  intro v₁ v₂ hmoved
  obtain ⟨k, hpress⟩ := press_of_starts?_drag additive hstarts
  have hpress : v₁ = v.startDrag p k s := hpress
  have hgrip : (v₁.followAll motions).grip = (v.startDrag p k s).grip := by
    rw [grip_followAll, hpress]
  have hactive : (v₁.followAll motions).drag.active = true := congrArg Grip.dragging hgrip
  have hstart : (v₁.followAll motions).drag.start = s := congrArg Grip.dragStart hgrip
  have hnode : (v₁.followAll motions).drag.nodeStart = v₁.drag.nodeStart :=
    congrArg Grip.nodeStart (grip_followAll motions)
  have hoffset := current_sub_toGraph_move hactive hmoved
  rw [hstart, hnode] at hoffset
  exact hoffset

/-- While a press on the background is held, the pointer is as far from the graph's origin as the
press was, in pixels. -/
theorem toGraph_of_starts?_pan (hstarts : v.starts? e p s shift = some .pan) :
    let v₁ := (v.press e p s additive shift).1
    let v₂ := (v₁.followAll motions).move g q c
    v₂.pan.moved = true → v₂.toGraph c =
      ⟨(s.x - v.transform.x) / v₂.transform.k, (s.y - v.transform.y) / v₂.transform.k⟩ := by
  intro v₁ v₂ hmoved
  have hpress : v₁ = v.startPan s := press_of_starts?_pan additive hstarts
  have hgrip : (v₁.followAll motions).grip = (v.startPan s).grip := by
    rw [grip_followAll, hpress]
  have hpan : (v₁.followAll motions).pan.active = true := congrArg Grip.panning hgrip
  have hstart : (v₁.followAll motions).pan.start = s := congrArg Grip.panStart hgrip
  have horigin : (v₁.followAll motions).pan.origin = ⟨v.transform.x, v.transform.y⟩ :=
    congrArg Grip.origin hgrip
  cases hdrag : (v₁.followAll motions).drag.active with
  | true =>
      -- beside a drag the pan never moves
      have hfirst : v₁.drag.active = true :=
        (congrArg Grip.dragging (grip_followAll motions)).symm.trans hdrag
      have hstill : v₂.pan = v₁.pan := (pan_move hdrag).trans (pan_followAll hfirst motions)
      rw [hstill, hpress] at hmoved
      contradiction
  | false =>
      have hcarries : (v₁.followAll motions).carries c = true :=
        carries_of_pan_moved hdrag hpan hmoved
      have hk₂ : v₂.transform.k = (v₁.followAll motions).transform.k := k_move
      have hpointer : v₂.toGraph c = _ := toGraph_move_of_carries hcarries
      rw [hpointer, hstart, horigin, hk₂]

/-- What is under the pointer after any moves and turns of the wheel since a press.  A dragged node
keeps its place to the pointer exactly if the screen point of the press shows the graph point that
it showed at the press; the dragged picture, exactly if the zoom is that of the press, unless the
press was on the origin. -/
theorem held_iff (hk : v.transform.k ∈ zoomRange) (e : Editor ℝ) (p : Positions ℝ) (s : Point ℝ)
    (additive shift : Bool) (motions : List (Motion ℝ)) (g : Graph ℝ) (q : Positions ℝ)
    (c : Point ℝ) :
    let v₁ := (v.press e p s additive shift).1
    let v₂ := (v₁.followAll motions).move g q c
    (v.starts? e p s shift = some .drag → v₂.drag.moved = true →
      (v₂.drag.current - v₂.toGraph c = v₁.drag.nodeStart - v.toGraph s ↔
        v₂.toGraph s = v.toGraph s)) ∧
    (v.starts? e p s shift = some .pan → v₂.pan.moved = true →
      (v₂.toGraph c = v.toGraph s ↔
        v₂.transform.k = v.transform.k ∨ v.toGraph s = .origin)) := by
  intro v₁ v₂
  constructor
  · intro hstarts hmoved
    rw [current_sub_toGraph_of_starts? additive motions g q c hstarts hmoved]
    exact Point.sub_eq_sub_iff
  · intro hstarts hmoved
    rw [toGraph_of_starts?_pan additive motions g q c hstarts hmoved]
    exact div_eq_div_iff_or (ne_of_gt (pos_of_mem_zoomRange hk))

/-- A dragged node keeps its place to the pointer while the wheel is turned at most at the point of
the press. -/
theorem held_of_wheel_at_press (hk : v.transform.k ∈ zoomRange)
    (hstarts : v.starts? e p s shift = some .drag) (hwheel : ∀ m ∈ motions, m.WheelAt s) :
    let v₁ := (v.press e p s additive shift).1
    let v₂ := (v₁.followAll motions).move g q c
    v₂.drag.moved = true → v₂.drag.current - v₂.toGraph c = v₁.drag.nodeStart - v.toGraph s := by
  intro v₁ v₂ hmoved
  obtain ⟨k, hpress⟩ := press_of_starts?_drag additive hstarts
  have hpress : v₁ = v.startDrag p k s := hpress
  have htransform : v₁.transform = v.transform := by rw [hpress]; rfl
  have hactive : v₁.drag.active = true := by rw [hpress]; rfl
  have hall : ∀ m ∈ motions ++ [.move g q c], m.WheelAt s := by
    intro m hm
    cases List.mem_append.mp hm with
    | inl hm => exact hwheel m hm
    | inr hm =>
        rw [List.mem_singleton.mp hm]
        trivial
  have hlast : v₂ = v₁.followAll (motions ++ [.move g q c]) := by simp [followAll, follow, v₂]
  have hshown : v₂.toGraph s = v.toGraph s := by
    rw [hlast, toGraph_followAll (htransform ▸ hk) hactive hall]
    exact toGraph_congr htransform s
  rw [current_sub_toGraph_of_starts? additive motions g q c hstarts hmoved, hshown]

end Held

/-! ## A board for trying out -/

/-- A board with one node, to the left of the origin. -/
noncomputable def loneBoard : Editor ℝ :=
  .start (.ofItems [⟨"a", "", .empty, none, ⟨-100, 0⟩⟩] []) true

/-- Where the node is drawn. -/
noncomputable def lonePositions : Positions ℝ := Layout.stored.positions loneBoard.graph

/-- A view where the node is 300 pixels from the left and 150 from above. -/
noncomputable def loneView : View ℝ := .ofSize 800 600

theorem k_loneView_mem_zoomRange : loneView.transform.k ∈ zoomRange := by
  constructor <;> norm_num [loneView, ofSize, minZoom, maxZoom]

/-- A press on the lone node starts a drag. -/
theorem starts?_loneView :
    loneView.starts? loneBoard lonePositions ⟨300, 150⟩ false = some .drag := by
  have hgrab : loneView.grabbedEdge? loneBoard lonePositions ⟨300, 150⟩ = none := rfl
  have hnode : loneView.nodeAt loneBoard.graph lonePositions ⟨300, 150⟩ = some "a" := by
    norm_num [nodeAt, covers, toGraph, displayPoint, lonePositions, Layout.positions,
      Positions.get?, loneBoard, Editor.start, Graph.ofItems, loneView, ofSize, Drag.idle,
      NodeKind.halfExtent, nodeRadius]
  simp [starts?, hgrab, hnode]

/-- A way of three pixels to the left or right is a movement. -/
theorem isMovement_of_le {s c : Point ℝ} (h : 3 ≤ |c.x - s.x|) : isMovement s c = true := by
  have hthreshold : (dragThreshold : ℝ) = 3 := by norm_num [dragThreshold]
  have hsquare : (3 : ℝ) ^ 2 ≤ (c.x - s.x) * (c.x - s.x) + (c.y - s.y) * (c.y - s.y) := by
    have hx : (3 : ℝ) ^ 2 ≤ |c.x - s.x| ^ 2 := pow_le_pow_left₀ (by norm_num) h 2
    rw [sq_abs] at hx
    nlinarith [mul_self_nonneg (c.y - s.y)]
  simp only [isMovement, Scalar.hypot, Scalar.sqrt_real, hthreshold, decide_eq_true_eq]
  exact Real.le_sqrt_of_sq_le hsquare

/-- A press on the node that is held while the wheel is turned once and the pointer goes 100 pixels
to the right moves the node. -/
theorem moved_loneView (s : Point ℝ) :
    ((((loneView.press loneBoard lonePositions ⟨300, 150⟩ false false).1.followAll
      [.wheel s (-1)]).move loneBoard.graph lonePositions ⟨400, 150⟩).drag.moved = true) := by
  obtain ⟨k, hpress⟩ := press_of_starts?_drag false starts?_loneView
  have hfar : isMovement (⟨300, 150⟩ : Point ℝ) ⟨400, 150⟩ = true := isMovement_of_le (by norm_num)
  rw [hpress]
  exact moved_move rfl hfar

/-- The wheel is turned at the point of the press. -/
theorem held_iff_loneView :
    loneView.transform.k ∈ zoomRange ∧
      let v₁ := (loneView.press loneBoard lonePositions ⟨300, 150⟩ false false).1
      let v₂ := (v₁.followAll [.wheel ⟨300, 150⟩ (-1)]).move loneBoard.graph lonePositions
        ⟨400, 150⟩
      (v₂.drag.current - v₂.toGraph ⟨400, 150⟩ = v₁.drag.nodeStart - loneView.toGraph ⟨300, 150⟩ ↔
        v₂.toGraph ⟨300, 150⟩ = loneView.toGraph ⟨300, 150⟩) :=
  ⟨k_loneView_mem_zoomRange,
    (held_iff k_loneView_mem_zoomRange loneBoard lonePositions ⟨300, 150⟩ false false
      [.wheel ⟨300, 150⟩ (-1)] loneBoard.graph lonePositions ⟨400, 150⟩).1
      starts?_loneView (moved_loneView ⟨300, 150⟩)⟩

/-- The wheel is turned at the graph's origin, and the pointer goes there: the node is left
behind. -/
theorem slipped :
    loneView.transform.k ∈ zoomRange ∧
      loneView.starts? loneBoard lonePositions ⟨300, 150⟩ false = some .drag ∧
      let v₁ := (loneView.press loneBoard lonePositions ⟨300, 150⟩ false false).1
      let v₂ := (v₁.followAll [.wheel ⟨400, 150⟩ (-1)]).move loneBoard.graph lonePositions
        ⟨400, 150⟩
      v₂.drag.moved = true ∧
        v₂.drag.current - v₂.toGraph ⟨400, 150⟩ ≠
          v₁.drag.nodeStart - loneView.toGraph ⟨300, 150⟩ := by
  have hmoved := moved_loneView ⟨400, 150⟩
  refine ⟨k_loneView_mem_zoomRange, starts?_loneView, hmoved, ?_⟩
  rw [current_sub_toGraph_of_starts? false [.wheel ⟨400, 150⟩ (-1)] loneBoard.graph lonePositions
    ⟨400, 150⟩ starts?_loneView hmoved, Ne, Point.sub_eq_sub_iff]
  obtain ⟨k, hpress⟩ := press_of_starts?_drag false starts?_loneView
  have htransform : (((loneView.startDrag lonePositions k ⟨300, 150⟩).followAll
      [.wheel ⟨400, 150⟩ (-1)]).move loneBoard.graph lonePositions ⟨400, 150⟩).transform =
        ⟨400, 150, 1.1⟩ := by
    refine (transform_move_of_drag rfl).trans ?_
    norm_num [followAll, follow, wheel, zoomAt, startDrag, loneView, ofSize, Scalar.clamp, minZoom,
      maxZoom]
  rw [hpress]
  intro h
  have hx := congrArg Point.x h
  simp only [toGraph, htransform] at hx
  norm_num [loneView, ofSize] at hx

end View

end GraphBoard
