import GraphBoard.Session.Basic
import GraphBoard.Proofs.Editor.Edits

/-!
# GraphBoard.Proofs.Session.Run

What one input can do to a board in use, part by part, so that what holds along a run is proved
without going through the inputs again.

* `view_handle` — the view stays, takes a `View.Step`, or is made anew;
* `event_handle` — an event comes from a press or a release on the view, or from a key;
* `editor_handle` — the editor carries out the action of the input and nothing else;
* `run_preserves` — what every input of a run keeps holds after the run, such as the validity of
  the graph (`valid_run`).
-/

namespace GraphBoard

variable {α : Type} [Scalar α]

/-- What can happen to a view. -/
inductive View.Step (v : View α) : View α → Prop where
  | press (e : Editor α) (p : Positions α) (c : Point α) (additive shift : Bool) :
    v.Step (v.press e p c additive shift).1
  | move (g : Graph α) (p : Positions α) (c : Point α) : v.Step (v.move g p c)
  | release : v.Step v.endGestures
  | leave : v.Step v.leave
  | wheel (c : Point α) (delta : α) : v.Step (v.wheel c delta)
  | center (p : Point α) : v.Step (v.centerOn p)
  | tick (dt : α) : v.Step (v.tick dt)
  | resize (width height : α) : v.Step (v.resize width height)

namespace Session

variable {s : Session α} {i : Input α} {w : View α}

/-! ## The view -/

/-- A view that an input leaves: a new one, or the old one, or one that a step leads to. -/
inductive Follows (s : Session α) : View α → Prop where
  | fresh (width height : α) : s.Follows (.ofSize width height)
  | same {v : View α} (hview : s.view = some v) : s.Follows v
  | step {v w : View α} (hview : s.view = some v) (hstep : v.Step w) : s.Follows w

/-- An event for the editor does not touch the view. -/
theorem view_report (outcome : Outcome α) (e : Option (Event α)) :
    (s.report outcome e).1.view = s.view := by
  cases e <;> rfl

/-- A change of the view that is a step leads to a view that follows. -/
theorem follows_updateView {f : View α → View α} (hf : ∀ v : View α, v.Step (f v))
    (h : (s.updateView f).view = some w) : s.Follows w := by
  obtain ⟨v, hview, rfl⟩ := Option.map_eq_some_iff.mp h
  exact .step hview (hf v)

/-- A canvas that can be set up gets a new view of its size. -/
theorem view_setUp (s : Session α) : s.setUp.view =
    if s.page.attached && s.page.hasWindow && s.page.drawable then
      some (.ofSize (s.page.canvasSize s.sizing).1 (s.page.canvasSize s.sizing).2)
    else s.view := by
  simp only [setUp]
  cases s.page.attached && s.page.hasWindow with
  | false => rfl
  | true =>
      cases hdraw : s.page.drawable with
      | false => simp [sized, hdraw]
      | true => simp [sized, hdraw, withView]

/-- A view that is set up follows. -/
theorem follows_setUp (h : s.setUp.view = some w) : s.Follows w := by
  rw [view_setUp] at h
  split at h
  · cases h
    exact .fresh _ _
  · exact .same h

/-- A view after a press follows. -/
theorem follows_press (client : Point α) (additive shift : Bool)
    (h : (s.press client additive shift).1.view = some w) : s.Follows w := by
  rw [press] at h
  cases hpoint : s.page.canvasPoint? client with
  | none =>
      rw [hpoint] at h
      exact .same h
  | some c =>
      cases hview : s.view with
      | none =>
          rw [hpoint, hview] at h
          exact .same h
      | some v =>
          simp only [hpoint, hview, view_report] at h
          cases h
          exact .step hview (.press s.editor s.positions c additive shift)

/-- A view after a release follows. -/
theorem follows_release (client : Point α) (h : (s.release client).1.view = some w) :
    s.Follows w := by
  rw [release] at h
  cases hview : s.view with
  | none =>
      rw [hview] at h
      exact .same h
  | some v =>
      simp only [hview, view_report] at h
      cases h
      exact .step hview .release

/-- A frame that was asked for lets time pass in the view. -/
theorem view_frame (s : Session α) : s.frame.1.view =
    if s.awaitsFrame then s.view.map fun v => v.tick frameTime else s.view := by
  rw [frame]
  cases hview : s.view with
  | none => simp
  | some v =>
      simp only []
      split <;> simp

/-- A view after a frame follows. -/
theorem follows_frame (h : s.frame.1.view = some w) : s.Follows w := by
  rw [view_frame] at h
  split at h
  · obtain ⟨v, hview, rfl⟩ := Option.map_eq_some_iff.mp h
    exact .step hview (.tick frameTime)
  · exact .same h

/-- A view after any input follows. -/
theorem view_handle (h : (s.handle i).1.view = some w) : s.Follows w := by
  cases i with
  | press client additive shift => exact follows_press client additive shift h
  | move client =>
      simp only [handle, move] at h
      split at h
      · exact .same h
      · exact follows_updateView (fun v => .move ..) h
  | release client => exact follows_release client h
  | leave => exact follows_updateView (fun v => .leave) h
  | wheel client delta =>
      simp only [handle, wheel] at h
      split at h
      · exact .same h
      · exact follows_updateView (fun v => .wheel ..) h
  | key name modifier =>
      simp only [handle, key] at h
      split at h
      · exact .same h
      · rw [view_report] at h
        exact .same h
  | frame => exact follows_frame h
  | resize innerWidth innerHeight =>
      simp only [handle, resize] at h
      split at h
      · split at h
        · exact .same h
        · obtain ⟨v, hview, rfl⟩ := Option.map_eq_some_iff.mp h
          exact .step hview (.resize ..)
      · exact .same h
  | window present => exact .same h
  | attach present =>
      have hsetUp : Follows { s with page := { s.page with attached := present } } w :=
        follows_setUp h
      cases hsetUp with
      | fresh width height => exact .fresh width height
      | same hview => exact .same hview
      | step hview hstep => exact .step hview hstep
  | layout l => exact .same h
  | reveal k =>
      simp only [handle, reveal] at h
      split at h
      · exact .same h
      · exact follows_updateView (fun v => .center _) h
  | edit action => exact .same h

/-- What a new view has and every step of a view keeps, the view has after an input if it had it
before. -/
theorem forall_view_handle {P : View α → Prop} (hnew : ∀ width height, P (.ofSize width height))
    (hstep : ∀ v w, P v → v.Step w → P w) (hs : ∀ v, s.view = some v → P v) :
    ∀ w, (s.handle i).1.view = some w → P w := by
  intro w hw
  cases view_handle hw with
  | fresh width height => exact hnew width height
  | same hview => exact hs w hview
  | step hview hvw => exact hstep _ w (hs _ hview) hvw

/-! ## The events and the editor -/

/-- Where an event comes from. -/
inductive Source (s : Session α) (e : Event α) : Prop where
  | press {v : View α} (hview : s.view = some v) (p : Positions α) (c : Point α)
    (additive shift : Bool) (h : (v.press s.editor p c additive shift).2 = some e)
  | release {v : View α} (hview : s.view = some v) (g : Graph α) (p : Positions α)
    (c : Option (Point α)) (h : v.releaseEvent g p c = some e)
  | key (name : String) (modifier : Bool) (pointer : Point α)
    (h : Event.ofKey? name modifier pointer = some e)

/-- What an input does to the editor, if anything. -/
def action? (s : Session α) : Input α → Option (Editor.Action α)
  | .edit action => some action
  | i => (s.handle i).2.event.map fun r => .event r.1

/-- The editor is used directly, or it is handed an event that the board reports. -/
theorem action?_eq_some {a : Editor.Action α} (h : s.action? i = some a) :
    i = .edit a ∨ ∃ e changed, (s.handle i).2.event = some (e, changed) ∧ a = .event e := by
  cases i with
  | edit action => exact Or.inl (congrArg Input.edit (Option.some.inj h))
  | _ =>
      simp only [action?] at h
      obtain ⟨⟨e, changed⟩, hevent, rfl⟩ := Option.map_eq_some_iff.mp h
      exact Or.inr ⟨e, changed, hevent, rfl⟩

/-- What is reported is the event and what the editor answers to it. -/
theorem event_report {outcome : Outcome α} (houtcome : outcome.event = none)
    (e : Option (Event α)) :
    (s.report outcome e).2.event = e.map fun e => (e, (s.editor.apply e).2) := by
  cases e with
  | none => exact houtcome
  | some e => rfl

/-- An event that is reported was handed on. -/
theorem eq_of_event_report {outcome : Outcome α} (houtcome : outcome.event = none)
    {o : Option (Event α)} {e : Event α} {changed : Bool}
    (h : (s.report outcome o).2.event = some (e, changed)) : o = some e := by
  rw [event_report houtcome] at h
  obtain ⟨e', ho, he⟩ := Option.map_eq_some_iff.mp h
  rw [ho, (Prod.mk.inj he).1]

/-- Every event that an input reports has a source. -/
theorem event_handle {e : Event α} {changed : Bool}
    (h : (s.handle i).2.event = some (e, changed)) : s.Source e := by
  cases i with
  | press client additive shift =>
      simp only [handle, press] at h
      split at h
      · cases h
      · split at h
        · cases h
        · rename_i v hview
          exact .press hview _ _ additive shift (eq_of_event_report rfl h)
  | release client =>
      simp only [handle, release] at h
      split at h
      · cases h
      · rename_i v hview
        exact .release hview _ _ _ (eq_of_event_report rfl h)
  | key name modifier =>
      simp only [handle, key] at h
      split at h
      · cases h
      · rename_i e' hkey
        rw [Option.some.inj (eq_of_event_report rfl h)] at hkey
        exact .key name modifier _ hkey
  | _ => cases h

/-- The editor carries out what is reported, and nothing else. -/
theorem editor_report {outcome : Outcome α} (houtcome : outcome.event = none)
    (o : Option (Event α)) : (s.report outcome o).1.editor =
      ((s.report outcome o).2.event.map fun r => Editor.Action.event r.1).elim s.editor
        fun a => (s.editor.perform a).1 := by
  rw [event_report houtcome]
  cases o <;> rfl

/-- To set the canvas up does not touch the editor. -/
theorem editor_setUp (s : Session α) : s.setUp.editor = s.editor := by
  simp only [setUp]
  split
  · split <;> rfl
  · rfl

/-- The editor carries out the action of an input. -/
theorem editor_handle (s : Session α) (i : Input α) : (s.handle i).1.editor =
    (s.action? i).elim s.editor fun a => (s.editor.perform a).1 := by
  cases i with
  | press client additive shift =>
      simp only [action?, handle, press]
      split
      · rfl
      · split
        · rfl
        · exact editor_report rfl _
  | move client =>
      simp only [action?, handle, move]
      split <;> rfl
  | release client =>
      simp only [action?, handle, release]
      split
      · rfl
      · exact editor_report rfl _
  | leave => rfl
  | wheel client delta =>
      simp only [action?, handle, wheel]
      split <;> rfl
  | key name modifier =>
      simp only [action?, handle, key]
      split <;> rfl
  | frame =>
      simp only [action?, handle, frame]
      split
      · split <;> rfl
      · rfl
  | resize innerWidth innerHeight =>
      simp only [action?, handle, resize]
      split
      · split <;> rfl
      · rfl
  | window present => rfl
  | attach present => exact editor_setUp _
  | layout l => rfl
  | reveal k =>
      simp only [action?, handle, reveal]
      split <;> rfl
  | edit action => rfl

/-! ## Runs -/

section Start

variable (editor : Editor α) (layout : Layout) (page : Page α) (sizing : Sizing α)

/-- A board starts with the editor that it is given. -/
theorem editor_start : (start editor layout page sizing).editor = editor := editor_setUp _

/-- A board starts with a new view of some size, if with any. -/
theorem exists_of_view_start (h : (start editor layout page sizing).view = some w) :
    ∃ width height, w = .ofSize width height := by
  cases follows_setUp h with
  | fresh width height => exact ⟨width, height, rfl⟩
  | same hview => cases hview
  | step hview hstep => cases hview

end Start

/-- What every input of a run keeps holds after the run. -/
theorem run_preserves {P : Session α → Prop} {inputs : List (Input α)} (hs : P s)
    (h : ∀ s, P s → ∀ i ∈ inputs, P (s.handle i).1) : P (s.run inputs) := by
  rw [run]
  induction inputs generalizing s with
  | nil => exact hs
  | cons i inputs ih =>
      have hfirst : P (s.handle i).1 := h s hs i List.mem_cons_self
      exact ih hfirst fun s hs j hj => h s hs j (List.mem_cons_of_mem i hj)

/-- An input keeps to valid graphs if the editor, when it is used directly, is given such only. -/
def Input.Valid : Input α → Prop
  | .edit action => action.Valid
  | _ => True

/-- An input keeps the graph valid. -/
theorem valid_handle (hs : s.editor.graph.Valid) (hi : i.Valid) :
    (s.handle i).1.editor.graph.Valid := by
  rw [editor_handle]
  cases haction : s.action? i with
  | none => exact hs
  | some a =>
      obtain rfl | ⟨e, changed, -, rfl⟩ := action?_eq_some haction
      · exact Editor.valid_perform hs hi
      · exact Editor.valid_apply hs e

/-- A run of inputs keeps the graph valid. -/
theorem valid_run {inputs : List (Input α)} (hs : s.editor.graph.Valid)
    (hinputs : ∀ i ∈ inputs, i.Valid) : (s.run inputs).editor.graph.Valid :=
  run_preserves (P := fun s => s.editor.graph.Valid) hs
    fun _ hs i hi => valid_handle hs (hinputs i hi)

end Session

end GraphBoard
