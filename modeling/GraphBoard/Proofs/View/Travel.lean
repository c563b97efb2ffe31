import Mathlib.Data.List.Induction
import GraphBoard.Proofs.View.Held

/-!
# GraphBoard.Proofs.View.Travel

Where the pointer leads a view along a path, from a press to its release.  A press becomes a
movement at the first point of the path that is far enough away, and it stays one wherever the path
leads then; what comes of it depends on the last point alone.

* `drag_moveAll` — a node that is dragged is where the last point leads it;
* `transform_moveAll_of_pan` — and so is the picture, while the background is dragged;
* `releaseEvent_moveAll_of_drag`, `releaseEvent_moveAll_of_pan` — what the release then reports.
-/

namespace GraphBoard.View

variable {α : Type} [Scalar α] {v : View α} {g : Graph α} {p : Positions α} {s start q : Point α}

/-- A node that is under the pointer has a place. -/
theorem exists_displayPoint_of_nodeAt {k : NodeKey} (h : v.nodeAt g p s = some k) :
    ∃ place, v.displayPoint p k = some place := by
  obtain ⟨n, hn, rfl⟩ := Option.map_eq_some_iff.mp h
  have hcovers : v.covers p (v.toGraph s) n = true := List.find?_some hn
  rw [covers] at hcovers
  cases hplace : v.displayPoint p n.key with
  | none =>
      rw [hplace] at hcovers
      contradiction
  | some place => exact ⟨place, rfl⟩

/-! ## Paths -/

/-- A press has become a movement at a point that is three pixels away or more. -/
theorem isMovement_iff : isMovement start q = true ↔
    3.0 ≤ Scalar.hypot (q.x - start.x) (q.y - start.y) :=
  decide_eq_true_iff

/-- The last point of a path, if some point of the path is three pixels or more from a press. -/
def reached (start : Point α) (path : List (Point α)) : Option (Point α) :=
  if ∃ q ∈ path, 3.0 ≤ Scalar.hypot (q.x - start.x) (q.y - start.y) then path.getLast? else none

/-- A path reaches something if one of its points makes the press a movement. -/
theorem reached_eq (start : Point α) (path : List (Point α)) :
    reached start path = if path.any (isMovement start) then path.getLast? else none := by
  simp only [reached, List.any_eq_true, isMovement_iff]

/-- A path reaches nothing exactly if all of its points are near the press. -/
theorem reached_eq_none_iff {path : List (Point α)} :
    reached start path = none ↔ ∀ q ∈ path, isMovement start q = false := by
  rw [reached_eq]
  cases hany : path.any (isMovement start) with
  | false => simpa using hany
  | true =>
      obtain ⟨q, hq, hfar⟩ := List.any_eq_true.mp hany
      have hne : path ≠ [] := List.ne_nil_of_mem hq
      simp only [if_true, List.getLast?_eq_none_iff, hne, false_iff, not_forall]
      exact ⟨q, hq, by simp [hfar]⟩

/-- A path reaches something exactly if one of its points is far enough from the press. -/
theorem isSome_reached (start : Point α) (path : List (Point α)) :
    (reached start path).isSome = path.any (isMovement start) := by
  rw [Bool.eq_iff_iff, ← not_iff_not, Option.not_isSome_iff_eq_none, reached_eq_none_iff]
  simp

/-- Once a movement, a press stays one. -/
theorem reached_concat (start : Point α) (path : List (Point α)) (q : Point α) :
    reached start (path ++ [q]) =
      if (reached start path).isSome || isMovement start q then some q else none := by
  rw [isSome_reached, reached_eq, List.any_append, List.getLast?_concat, List.any_cons,
    List.any_nil, Bool.or_false]

/-- The view after the pointer has gone along a path. -/
def moveAll (v : View α) (g : Graph α) (p : Positions α) (path : List (Point α)) : View α :=
  path.foldl (fun v s => v.move g p s) v

/-- The last point of a path is gone to last. -/
theorem moveAll_concat (path : List (Point α)) (q : Point α) :
    v.moveAll g p (path ++ [q]) = (v.moveAll g p path).move g p q :=
  List.foldl_append

/-- The gestures go on along a path. -/
theorem going_moveAll (path : List (Point α)) (a : Gesture) :
    (v.moveAll g p path).going a = v.going a := by
  induction path using List.reverseRecOn with
  | nil => rfl
  | append_singleton path q ih => rw [moveAll_concat, going_move, ih]

/-! ## A node along a path -/

/-- The drag of a node that has been led to a screen point. -/
def dragged (v : View α) (q : Point α) : Drag α :=
  { v.drag with
    moved := true
    current :=
      ⟨v.drag.nodeStart.x + (q.x - v.drag.start.x) / v.transform.k,
        v.drag.nodeStart.y + (q.y - v.drag.start.y) / v.transform.k⟩ }

/-- A move leads the drag along once it has become a movement. -/
theorem drag_move (hdrag : v.drag.active = true) : (v.move g p q).drag =
    if v.drag.moved || isMovement v.drag.start q then v.dragged q else v.drag := by
  rw [move_of_drag hdrag, dragTo]
  exact apply_ite View.drag _ _ _

/-- The picture stays along a path while a node is dragged. -/
theorem transform_moveAll_of_drag (hdrag : v.drag.active = true) (path : List (Point α)) :
    (v.moveAll g p path).transform = v.transform := by
  induction path using List.reverseRecOn with
  | nil => rfl
  | append_singleton path q ih =>
      have hactive : (v.moveAll g p path).drag.active = true :=
        (going_moveAll path .drag).trans hdrag
      rw [moveAll_concat, transform_move_of_drag hactive, ih]

/-- Where a drag leads depends on its press and the transform only. -/
theorem dragged_congr {w : View α} (hdrag : w.drag = v.drag ∨ ∃ r, w.drag = v.dragged r)
    (htransform : w.transform = v.transform) (q : Point α) : w.dragged q = v.dragged q := by
  obtain hdrag | ⟨r, hdrag⟩ := hdrag
  · simp only [dragged, hdrag, htransform]
  · simp only [dragged, hdrag, htransform]

/-- A dragged node stays until the press becomes a movement, and is then where the last point of the
path leads it. -/
theorem drag_moveAll (hdrag : v.drag.active = true) (hfirst : v.drag.moved = false)
    (path : List (Point α)) : (v.moveAll g p path).drag =
      match reached v.drag.start path with
      | none => v.drag
      | some q => v.dragged q := by
  -- Every point counts from the press and not from the point before it, so the induction is from
  -- the back, and all that it needs of the points before is whether one was far enough away.
  induction path using List.reverseRecOn with
  | nil => rfl
  | append_singleton path q ih =>
      have hactive : (v.moveAll g p path).drag.active = true :=
        (going_moveAll path .drag).trans hdrag
      have htransform := transform_moveAll_of_drag (g := g) (p := p) hdrag path
      rw [moveAll_concat, drag_move hactive, reached_concat]
      cases hreached : reached v.drag.start path with
      | none =>
          rw [hreached] at ih
          rw [dragged_congr (Or.inl ih) htransform, ih, hfirst]
          cases isMovement v.drag.start q <;> rfl
      | some r =>
          rw [hreached] at ih
          rw [dragged_congr (Or.inr ⟨r, ih⟩) htransform, ih]
          rfl

/-- A release after a drag reports where the node is, if the press has become a movement. -/
theorem releaseEvent_moveAll_of_drag {k : NodeKey} (hdrag : v.drag.active = true)
    (hnode : v.drag.node = some k) (hfirst : v.drag.moved = false) (hpan : v.going .pan = false)
    (hdraft : v.going .draft = false) (path : List (Point α)) (stop : Option (Point α)) :
    (v.moveAll g p path).releaseEvent g p stop =
      (reached v.drag.start path).map fun q => .updateNode k (v.dragged q).current := by
  have hdraft' : (v.moveAll g p path).draft = none :=
    Option.isNone_iff_eq_none.mp (by simpa [going] using (going_moveAll path .draft).trans hdraft)
  have hpan' : (v.moveAll g p path).pan.active = false := (going_moveAll path .pan).trans hpan
  have hdrag' := drag_moveAll (g := g) (p := p) hdrag hfirst path
  rw [releaseEvent, hdraft', hdrag', hpan']
  cases reached v.drag.start path with
  | none => simp [hfirst]
  | some q => simp [dragged, hdrag, hnode]

/-! ## The picture along a path -/

/-- A move tells whether the pan has become a movement. -/
theorem pan_move_of_pan (hdrag : v.drag.active = false) (hpan : v.pan.active = true) :
    (v.move g p q).pan = { v.pan with moved := v.pan.moved || isMovement v.pan.start q } := by
  rw [move_of_pan hdrag hpan, panTo]
  cases h : v.pan.moved || isMovement v.pan.start q with
  | true => exact congrArg View.pan (if_pos h)
  | false =>
      have hstill : v.pan.moved = false := (Bool.or_eq_false_iff.mp h).1
      have hnear : ¬ (v.pan.moved || isMovement v.pan.start q) = true := by simp [h]
      rw [← hstill]
      exact (congrArg View.pan (if_neg hnear)).trans rfl

/-- All that a pan takes note of on the way is whether the press has become a movement. -/
theorem pan_moveAll (hdrag : v.drag.active = false) (hpan : v.pan.active = true)
    (hfirst : v.pan.moved = false) (path : List (Point α)) : (v.moveAll g p path).pan =
      { v.pan with moved := (reached v.pan.start path).isSome } := by
  induction path using List.reverseRecOn with
  | nil =>
      change v.pan = { v.pan with moved := false }
      rw [← hfirst]
  | append_singleton path q ih =>
      have hdrag' : (v.moveAll g p path).drag.active = false :=
        (going_moveAll path .drag).trans hdrag
      have hpan' : (v.moveAll g p path).pan.active = true := (going_moveAll path .pan).trans hpan
      rw [moveAll_concat, pan_move_of_pan hdrag' hpan', ih, isSome_reached, isSome_reached,
        List.any_append]
      simp

/-- The picture stays until the press becomes a movement, and is then where the last point of the
path leads it. -/
theorem transform_moveAll_of_pan (hdrag : v.drag.active = false) (hpan : v.pan.active = true)
    (hfirst : v.pan.moved = false) (path : List (Point α)) : (v.moveAll g p path).transform =
      match reached v.pan.start path with
      | none => v.transform
      | some q => (v.carried q).transform := by
  induction path using List.reverseRecOn with
  | nil => rfl
  | append_singleton path q ih =>
      have hdrag' : (v.moveAll g p path).drag.active = false :=
        (going_moveAll path .drag).trans hdrag
      have hpan' := pan_moveAll (g := g) (p := p) hdrag hpan hfirst path
      have hk : (v.moveAll g p path).transform.k = v.transform.k := by
        rw [ih]
        cases reached v.pan.start path <;> rfl
      have hcarried : ((v.moveAll g p path).carried q).transform = (v.carried q).transform := by
        simp only [carried, hpan', hk]
      rw [moveAll_concat, transform_move, hcarried, carries, hdrag', hpan', hpan, reached_concat]
      cases hreached : reached v.pan.start path with
      | none =>
          rw [hreached] at ih
          rw [ih]
          cases isMovement v.pan.start q <;> rfl
      | some r => rfl

/-- A release after a press on the background empties the selection, unless the press has become a
movement. -/
theorem releaseEvent_moveAll_of_pan (hdrag : v.going .drag = false) (hpan : v.pan.active = true)
    (hfirst : v.pan.moved = false) (hdraft : v.going .draft = false) (path : List (Point α))
    (stop : Option (Point α)) : (v.moveAll g p path).releaseEvent g p stop =
      if (reached v.pan.start path).isNone then some .clearSelection else none := by
  have hdraft' : (v.moveAll g p path).draft = none :=
    Option.isNone_iff_eq_none.mp (by simpa [going] using (going_moveAll path .draft).trans hdraft)
  have hdrag' : (v.moveAll g p path).drag.active = false := (going_moveAll path .drag).trans hdrag
  rw [releaseEvent, hdraft', hdrag', pan_moveAll hdrag hpan hfirst path, hpan]
  cases reached v.pan.start path <;> rfl

end GraphBoard.View
