import GraphBoard.View.Gesture

/-!
# GraphBoard.Proofs.View.Gesture

Which gestures are going on in a view. A press adds the one that it starts to those that are going
on already (`going_press`), a release and the pointer's leaving end all of them, and whatever else
happens to a view leaves them as they are.
-/

namespace GraphBoard

/-- What a press can start. -/
inductive Gesture where
  /-- A node follows the pointer. -/
  | drag
  /-- The picture follows the pointer. -/
  | pan
  /-- An end of an edge follows the pointer. -/
  | draft
deriving DecidableEq, Repr

namespace View

variable {α : Type} [Scalar α] {v : View α} {e : Editor α} {g : Graph α} {p : Positions α}
  {s : Point α} {a : Gesture}

/-- Whether a gesture is going on. -/
def going (v : View α) : Gesture → Bool
  | .drag => v.drag.active
  | .pan => v.pan.active
  | .draft => v.draft.isSome

/-- The gesture that a press at a screen point starts. -/
def starts? (v : View α) (e : Editor α) (p : Positions α) (s : Point α) (shift : Bool) :
    Option Gesture :=
  if (v.grabbedEdge? e p s).isSome then some .draft
  else if (v.nodeAt e.graph p s).isSome then some (if shift then .draft else .drag)
  else if (v.edgeAt e.graph p s).isSome || shift then none
  else some .pan

/-! ## Pressing -/

omit [Scalar α] in
/-- To start an edge lets the other gestures go on. -/
theorem going_startDraft (source : NodeKey) (replacing : Option EdgeKey) (cursor : Point α) :
    (v.startDraft source replacing cursor).going a = (v.going a || .draft == a) := by
  cases a <;> simp [startDraft, going]

/-- To start a drag lets the other gestures go on. -/
theorem going_startDrag (k : NodeKey) :
    (v.startDrag p k s).going a = (v.going a || .drag == a) := by
  cases a <;> simp [startDrag, going]

omit [Scalar α] in
/-- To start a pan lets the other gestures go on. -/
theorem going_startPan : (v.startPan s).going a = (v.going a || .pan == a) := by
  cases a <;> simp [startPan, going]

/-- A press ends nothing: it adds the gesture that it starts. -/
theorem going_press (additive shift : Bool) :
    (v.press e p s additive shift).1.going a =
      (v.going a || v.starts? e p s shift == some a) := by
  rw [press, starts?]
  cases hgrab : v.grabbedEdge? e p s with
  | some k => simp [going_startDraft]
  | none =>
      cases hnode : v.nodeAt e.graph p s with
      | some k => cases shift <;> simp [going_startDraft, going_startDrag]
      | none =>
          cases hedge : v.edgeAt e.graph p s with
          | some k => simp
          | none => cases shift <;> simp [going_startPan]

/-! ## Moving -/

theorem going_point : (v.point s).going a = v.going a := by
  cases a <;> simp [point, going]

theorem going_dragTo : (v.dragTo s).going a = v.going a := by
  rw [dragTo]
  split
  · cases a <;> rfl
  · rfl

theorem going_panTo : (v.panTo s).going a = v.going a := by
  rw [panTo]
  split
  · cases a <;> rfl
  · rfl

/-- A move does to a part of a view what pointing does, if following and hovering leave it alone. -/
theorem part_move {β : Type} (part : View α → β) (hdrag : ∀ v : View α, part (v.dragTo s) = part v)
    (hpan : ∀ v : View α, part (v.panTo s) = part v)
    (hhover : ∀ (v : View α) (hover : Option NodeKey), part { v with hover } = part v) :
    part (v.move g p s) = part (v.point s) := by
  simp only [move]
  split
  · exact hdrag _
  · split
    · exact hpan _
    · split
      · exact hhover _ _
      · rfl

/-- A move neither starts nor ends a gesture. -/
theorem going_move : (v.move g p s).going a = v.going a := by
  have hsame : (v.move g p s).going a = (v.point s).going a :=
    part_move (fun v => v.going a) (fun _ => going_dragTo) (fun _ => going_panTo)
      (fun _ _ => by cases a <;> rfl)
  rw [hsame, going_point]

/-! ## Releasing -/

/-- No gesture goes on when all are ended. -/
theorem going_endGestures : v.endGestures.going a = false := by
  cases a <;> rfl

theorem going_leave : v.leave.going a = false := by
  cases a <;> rfl

/-! ## The rest -/

theorem going_ofSize (width height : α) : (ofSize width height).going a = false := by
  cases a <;> rfl

theorem going_wheel (delta : α) : (v.wheel s delta).going a = v.going a := by
  cases a <;> rfl

theorem going_centerOn (spot : Point α) : (v.centerOn spot).going a = v.going a := by
  cases a <;> rfl

theorem going_tick (dt : α) : (v.tick dt).going a = v.going a := by
  cases a <;> rfl

omit [Scalar α] in
theorem going_resize (width height : α) : (v.resize width height).going a = v.going a := by
  cases a <;> rfl

end View

end GraphBoard
