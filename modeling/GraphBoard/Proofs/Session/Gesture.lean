import Mathlib.Data.List.Induction
import GraphBoard.Session.Basic
import GraphBoard.Scalar.Double
import GraphBoard.Proofs.Editor.Sound
import GraphBoard.Proofs.View.Gesture

/-!
# GraphBoard.Proofs.Session.Gesture

Which gestures are going on while a board is in use. A press starts a gesture and does not end the
one that is going on, so two of different kinds can go on at once when a second button is pressed
while the first is held. `oneGesture_run_iff` says that this is the only way: a run keeps to one
gesture at a time exactly when no press in it starts a gesture beside another. With one button it
always does (`oneGesture_of_oneButton`).

A release reports one event only, so with two gestures going on it reports that of one and forgets
the other (`crowded_pair`).
-/

namespace GraphBoard.Session

variable {α : Type} [Scalar α] {s : Session α} {i : Input α} {a b : Gesture}

/-- Whether a gesture is going on. -/
def going (s : Session α) (a : Gesture) : Bool := s.view.any (·.going a)

/-- The gesture that an input starts. -/
def starts? (s : Session α) : Input α → Option Gesture
  | .press client _ shift =>
    match s.page.canvasPoint? client, s.view with
    | some c, some v => v.starts? s.editor s.positions c shift
    | _, _ => none
  | _ => none

/-- Whether an input ends the gestures that are going on. To put the canvas on the page does, since
the view is made anew. -/
def ends (s : Session α) : Input α → Bool
  | .release _ => true
  | .leave => true
  | .attach present => present && s.page.hasWindow && s.page.drawable
  | _ => false

/-! ## What an input does to the gestures -/

theorem going_report (outcome : Outcome α) (e : Option (Event α)) :
    (s.report outcome e).1.going a = s.going a := by
  cases e <;> rfl

omit [Scalar α] in
/-- A change of the view that does not touch the gestures does not touch those of the board. -/
theorem going_updateView {f : View α → View α} (hf : ∀ v, (f v).going a = v.going a) :
    (s.updateView f).going a = s.going a := by
  simp only [updateView, going]
  cases s.view with
  | none => rfl
  | some v => simp [hf]

/-- To set the canvas up ends every gesture. -/
theorem going_setUp : s.setUp.going a =
    (s.going a && !(s.page.attached && s.page.hasWindow && s.page.drawable)) := by
  simp only [setUp]
  cases hpage : s.page.attached && s.page.hasWindow with
  | false => simp
  | true =>
      cases hdraw : s.page.drawable with
      | false => simp [sized, hdraw, going]
      | true => simp [sized, hdraw, withView, going, View.going_ofSize]

/-- After a press those gestures go on that went on before, and the one that it starts. -/
theorem going_press (client : Point α) (additive shift : Bool) :
    (s.press client additive shift).1.going a =
      (s.going a || s.starts? (.press client additive shift) == some a) := by
  rw [press, starts?]
  cases hpoint : s.page.canvasPoint? client with
  | none => simp
  | some c =>
      cases hview : s.view with
      | none => simp
      | some v =>
          simp only [going_report]
          simp [going, hview, View.going_press]

/-- After a release no gesture goes on. -/
theorem going_release (client : Point α) : (s.release client).1.going a = false := by
  rw [release]
  cases hview : s.view with
  | none => simp [going, hview]
  | some v =>
      simp only [going_report]
      simp [going, View.release, View.going_endGestures]

theorem going_frame : s.frame.1.going a = s.going a := by
  rw [frame]
  cases hview : s.view with
  | none => simp [going, hview]
  | some v =>
      simp only []
      split <;> simp [going, hview, View.going_tick]

theorem going_resize (innerWidth innerHeight : Option α) :
    (s.resize innerWidth innerHeight).going a = s.going a := by
  simp only [resize]
  split
  · split
    · rfl
    · rw [going_updateView fun v => View.going_resize ..]
      rfl
  · rfl

/-- The gestures after an input: those that it does not end, and the one that it starts. -/
theorem going_handle : (s.handle i).1.going a =
    (s.going a && !s.ends i || s.starts? i == some a) := by
  cases i with
  | press client additive shift => simpa [handle, ends] using going_press client additive shift
  | move client =>
      simp only [handle, move]
      split
      · simp [ends, starts?]
      · simpa [ends, starts?] using going_updateView fun v => View.going_move
  | release client => simpa [handle, ends, starts?] using going_release client
  | leave =>
      simp only [handle, ends, starts?, updateView, going]
      cases s.view <;> simp [View.going_leave]
  | wheel client delta =>
      simp only [handle, wheel]
      split
      · simp [ends, starts?]
      · simpa [ends, starts?] using going_updateView fun v => View.going_wheel delta
  | key name modifier =>
      simp only [handle, key]
      split
      · simp [ends, starts?]
      · simpa [ends, starts?] using going_report ..
  | frame => simpa [handle, ends, starts?] using going_frame
  | resize innerWidth innerHeight =>
      simpa [handle, ends, starts?] using going_resize innerWidth innerHeight
  | window present => simp [handle, ends, starts?, going]
  | attach present =>
      simp only [handle, attach, going_setUp]
      simp [ends, starts?, going]
  | layout l => simp [handle, ends, starts?, going]
  | reveal k =>
      simp only [handle, reveal]
      split
      · simp [ends, starts?]
      · simpa [ends, starts?] using going_updateView fun v => View.going_centerOn _
  | edit action => simp [handle, ends, starts?, going]

/-- An input that starts a gesture ends none. -/
theorem ends_eq_false_of_starts? (h : s.starts? i = some a) : s.ends i = false := by
  cases i <;> simp_all [starts?, ends]

/-! ## One gesture at a time -/

/-- No gesture is going on. -/
def Still (s : Session α) : Prop := ∀ a, s.going a = false

/-- At most one gesture is going on. -/
def OneGesture (s : Session α) : Prop :=
  ∀ a b, s.going a = true → s.going b = true → a = b

/-- An input starts a gesture while one of another kind is going on. -/
def Crowds (s : Session α) (i : Input α) : Prop :=
  ∃ a b, s.starts? i = some a ∧ s.going b = true ∧ a ≠ b

omit [Scalar α] in
/-- If no gesture is going on, no two are. -/
theorem Still.oneGesture (hs : s.Still) : s.OneGesture := by
  intro a b ha
  rw [hs a] at ha
  contradiction

/-- If no gesture is going on, none can be crowded. -/
theorem Still.not_crowds (hs : s.Still) : ¬ s.Crowds i := by
  intro h
  obtain ⟨a, b, -, hb, -⟩ := h
  rw [hs b] at hb
  contradiction

/-- An input leaves one gesture at a time exactly when it does not start one beside another. -/
theorem oneGesture_handle_iff (hs : s.OneGesture) :
    (s.handle i).1.OneGesture ↔ ¬ s.Crowds i := by
  constructor
  · intro h hcrowds
    obtain ⟨a, b, hstarts, hb, hne⟩ := hcrowds
    have hends : s.ends i = false := ends_eq_false_of_starts? hstarts
    apply hne
    apply h a b
    · simp [going_handle, hstarts]
    · simp [going_handle, hb, hends]
  · intro h a b ha hb
    simp only [going_handle, Bool.or_eq_true, Bool.and_eq_true, beq_iff_eq] at ha hb
    obtain ⟨ha, -⟩ | ha := ha <;> obtain ⟨hb, -⟩ | hb := hb
    · exact hs a b ha hb
    · by_contra hne
      exact h ⟨b, a, hb, ha, Ne.symm hne⟩
    · by_contra hne
      exact h ⟨a, b, ha, hb, hne⟩
    · exact Option.some.inj (ha.symm.trans hb)

section Run

variable (editor : Editor α) (layout : Layout) (page : Page α) (sizing : Sizing α)

/-- A board starts with no gesture. -/
theorem still_start : (start editor layout page sizing).Still := by
  intro a
  rw [start, going_setUp]
  rfl

/-- The last input is handled behind the others. -/
theorem run_concat (s : Session α) (inputs : List (Input α)) (i : Input α) :
    s.run (inputs ++ [i]) = ((s.run inputs).handle i).1 := by
  simp [run]

/-- A run keeps to one gesture at a time exactly when no press in it starts a gesture while one of
another kind is going on. -/
theorem oneGesture_run_iff (inputs : List (Input α)) :
    (∀ done, done <+: inputs → ((start editor layout page sizing).run done).OneGesture) ↔
      ∀ done i, done ++ [i] <+: inputs →
        ¬ ((start editor layout page sizing).run done).Crowds i := by
  constructor
  · intro h done i hdone
    have hbefore : ((start editor layout page sizing).run done).OneGesture :=
      h done ((List.prefix_append done [i]).trans hdone)
    rw [← oneGesture_handle_iff hbefore, ← run_concat]
    exact h (done ++ [i]) hdone
  · intro h done hdone
    -- The state after a shorter run carries the invariant, so the induction is from the back.
    induction done using List.reverseRecOn with
    | nil => exact (still_start editor layout page sizing).oneGesture
    | append_singleton done i ih =>
        have hbefore : ((start editor layout page sizing).run done).OneGesture :=
          ih ((List.prefix_append done [i]).trans hdone)
        rw [run_concat, oneGesture_handle_iff hbefore]
        exact h done i hdone

end Run

/-- Two nodes side by side. -/
def pairGraph : Graph Float :=
  .ofItems [⟨"a", "", .empty, none, .origin⟩, ⟨"b", "", .empty, none, ⟨200.0, 0.0⟩⟩] []

/-- The two nodes on a canvas where they are 400 and 600 pixels from the left and 150 from above. -/
def pair : Session Float :=
  start (.start pairGraph true) .stored
    { hasWindow := true
      innerWidth := none
      innerHeight := none
      parent := none
      corner := .origin
      drawable := true
      attached := true }
    { fullscreen := false, width := some 800.0, height := some 600.0 }

theorem valid_pairGraph : pairGraph.Valid := by
  constructor <;> decide

/-- An editor that was started on them can be reached. -/
theorem reachable_pair : pair.editor.Reachable :=
  ⟨pairGraph, true, [], valid_pairGraph, by simp, rfl⟩

/-- An edge is drawn from the left node to the right one, and there a second button drags the right
node down. -/
def pairInputs : List (Input Float) :=
  [.press ⟨400.0, 150.0⟩ false true, .move ⟨600.0, 150.0⟩, .press ⟨600.0, 150.0⟩ false false,
    .move ⟨600.0, 250.0⟩]

/-- Two gestures at a time: the node follows the pointer and so does the edge. The release, where
only the dragged node is, makes the edge and leaves the node where it was stored. -/
theorem crowded_pair :
    pair.editor.Reachable ∧ ¬ (pair.run pairInputs).OneGesture ∧
      ((pair.run pairInputs).handle (.release ⟨600.0, 250.0⟩)).2.event =
        some (.createEdge "a" "b", true) := by
  have hdrag : (pair.run pairInputs).going .drag = true := by decide +kernel
  have hdraft : (pair.run pairInputs).going .draft = true := by decide +kernel
  refine ⟨reachable_pair, fun h => ?_, by decide +kernel⟩
  have heq : Gesture.drag = Gesture.draft := h _ _ hdrag hdraft
  cases heq

/-! ## A pointer with one button -/

/-- Whether a button is pressed. -/
def Input.presses : Input α → Bool
  | .press .. => true
  | _ => false

/-- Whether a button is released or the pointer leaves the canvas. -/
def Input.releases : Input α → Bool
  | .release _ => true
  | .leave => true
  | _ => false

/-- Whether every press comes after the release of the one before; `held` tells whether there is a
press to be released at the beginning. -/
def oneButton (held : Bool) : List (Input α) → Bool
  | [] => true
  | i :: inputs => !(held && i.presses) && oneButton (i.presses || held && !i.releases) inputs

/-- Only a press starts a gesture. -/
theorem starts?_of_not_presses (s : Session α) (h : i.presses = false) : s.starts? i = none := by
  cases i <;> first | rfl | simp [Input.presses] at h

omit [Scalar α] in
/-- A release ends the gestures. -/
theorem ends_of_releases (s : Session α) (h : i.releases = true) : s.ends i = true := by
  cases i <;> first | rfl | simp [Input.releases] at h

/-- The press before is released by the time of the next, so a press finds no gesture going on. -/
theorem OneGesture.run {held : Bool} {inputs : List (Input α)} (hs : s.OneGesture)
    (hheld : held = false → s.Still) (hinputs : oneButton held inputs = true) :
    (s.run inputs).OneGesture := by
  induction inputs generalizing s held with
  | nil => exact hs
  | cons i inputs ih =>
      obtain ⟨hi, hrest⟩ : (held = false ∨ i.presses = false) ∧
          oneButton (i.presses || held && !i.releases) inputs = true := by
        simpa [oneButton] using hinputs
      have hcrowds : ¬ s.Crowds i := by
        cases hpress : i.presses with
        | false => simp [Crowds, starts?_of_not_presses s hpress]
        | true => exact (hheld (by simpa [hpress] using hi)).not_crowds
      refine ih ((oneGesture_handle_iff hs).mpr hcrowds) (fun hafter a => ?_) hrest
      obtain ⟨hpress, hleft⟩ : i.presses = false ∧ (held && !i.releases) = false := by
        simpa using hafter
      rw [going_handle, starts?_of_not_presses s hpress]
      cases hrelease : i.releases with
      | false => simp [hheld (by simpa [hrelease] using hleft) a]
      | true => simp [ends_of_releases s hrelease]

/-- With a pointer of one button there is one gesture at a time. -/
theorem oneGesture_of_oneButton (editor : Editor α) (layout : Layout) (page : Page α)
    (sizing : Sizing α) {inputs : List (Input α)} (hinputs : oneButton false inputs = true) :
    ((start editor layout page sizing).run inputs).OneGesture :=
  have hstart : (start editor layout page sizing).Still := still_start editor layout page sizing
  hstart.oneGesture.run (fun _ => hstart) hinputs

end GraphBoard.Session
