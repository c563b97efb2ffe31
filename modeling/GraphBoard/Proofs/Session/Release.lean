import GraphBoard.Proofs.Session.Gesture
import GraphBoard.Proofs.Session.Pointer
import GraphBoard.Proofs.View.Travel

/-!
# GraphBoard.Proofs.Session.Release

What comes of a press that is held along a path and released, with nothing else in between.

* `outcome_hold` — the events are that of the press and that of the release, and the moves between
  them lead the view along the path;
* `hold_exact` — so a press on the background moves the picture or empties the selection, and a
  press on a node moves the node or just chooses it, by what the path reaches.
-/

namespace GraphBoard.Session

open View (reached)

variable {α : Type} [Scalar α] {s : Session α} {v : View α}

/-- The events that the view reports in a run, input by input. -/
def events (s : Session α) : List (Input α) → List (Option (Event α))
  | [] => []
  | i :: inputs => (s.handle i).2.event.map Prod.fst :: (s.handle i).1.events inputs

/-- The events of two runs in turn are those of the first and then of the second. -/
theorem events_append (s : Session α) (xs ys : List (Input α)) :
    s.events (xs ++ ys) = s.events xs ++ (s.run xs).events ys := by
  induction xs generalizing s with
  | nil => rfl
  | cons i xs ih =>
      rw [List.cons_append, events, events, ih]
      rfl

/-- A button is pressed without shift, the pointer goes along a path, and the button is released. -/
def hold (start : Point α) (additive : Bool) (path : List (Point α)) (stop : Point α) :
    List (Input α) :=
  .press start additive false :: (path.map .move ++ [.release stop])

/-! ## Press, moves, release -/

/-- A press changes the view and, by its event, the editor. -/
theorem handle_press (hpage : s.page.attached = true) (hview : s.view = some v) (client : Point α)
    (additive shift : Bool) :
    let pressed := v.press s.editor s.positions (s.spot client) additive shift
    let after := s.handle (.press client additive shift)
    (∃ editor, after.1 = { s with editor, view := some pressed.1 }) ∧
      after.2.event.map Prod.fst = pressed.2 := by
  intro pressed after
  have hafter : after =
      { s with view := some pressed.1 }.report { focused := true } pressed.2 := by
    simp only [after, pressed, handle, press, canvasPoint?_eq_spot hpage, hview]
  rw [hafter]
  cases pressed.2 <;> exact ⟨⟨_, rfl⟩, rfl⟩

/-- Moves lead the view along a path and report nothing. -/
theorem run_moves (hpage : s.page.attached = true) (v : View α) (path : List (Point α)) :
    ({ s with view := some v } : Session α).run (path.map .move) =
        { s with view := some (v.moveAll s.editor.graph s.positions (path.map s.spot)) } ∧
      ({ s with view := some v } : Session α).events (path.map .move) =
        List.replicate path.length none := by
  induction path generalizing v with
  | nil => exact ⟨rfl, rfl⟩
  | cons q path ih =>
      have hstep : (({ s with view := some v } : Session α).handle (.move q)).1 =
          { s with view := some (v.move s.editor.graph s.positions (s.spot q)) } := by
        simp only [handle, move, canvasPoint?_eq_spot hpage, updateView, Option.map_some]
        rfl
      obtain ⟨hrun, hquiet⟩ := ih (v.move s.editor.graph s.positions (s.spot q))
      rw [← hstep] at hrun hquiet
      constructor
      · exact hrun
      · exact congrArg (none :: ·) hquiet

/-- A release ends the gestures, and reports what they come to. -/
theorem handle_release (hview : s.view = some v) (client : Point α) :
    (s.handle (.release client)).1.view = some v.endGestures ∧
      (s.handle (.release client)).2.event.map Prod.fst =
        v.releaseEvent s.editor.graph s.positions (s.page.canvasPoint? client) := by
  have hafter : s.handle (.release client) = { s with view := some v.endGestures }.report {}
      (v.releaseEvent s.editor.graph s.positions (s.page.canvasPoint? client)) := by
    simp only [handle, release, View.release, hview]
  rw [hafter]
  cases v.releaseEvent s.editor.graph s.positions (s.page.canvasPoint? client) <;>
    exact ⟨rfl, rfl⟩

/-- What a press held along a path comes to: its own event, nothing on the way, and the event of a
release of the view that the path leads to. -/
theorem outcome_hold (hpage : s.page.attached = true) (hview : s.view = some v) (start : Point α)
    (additive : Bool) (path : List (Point α)) (stop : Point α) :
    let pressed := v.press s.editor s.positions (s.spot start) additive false
    ∃ g p, (s.run (hold start additive path stop)).view =
        some (pressed.1.moveAll g p (path.map s.spot)).endGestures ∧
      s.events (hold start additive path stop) = pressed.2 :: (List.replicate path.length none ++
        [(pressed.1.moveAll g p (path.map s.spot)).releaseEvent g p
          (s.page.canvasPoint? stop)]) := by
  intro pressed
  obtain ⟨⟨editor, hpress⟩, hevent⟩ := handle_press hpage hview start additive false
  let held : Session α := { s with editor, view := some pressed.1 }
  let led : Session α := { s with
    editor
    view := some (pressed.1.moveAll editor.graph (s.layout.positions editor.graph)
      (path.map s.spot)) }
  have hpress : (s.handle (.press start additive false)).1 = held := hpress
  obtain ⟨hmoves, hquiet⟩ : held.run (path.map .move) = led ∧
      held.events (path.map .move) = List.replicate path.length none :=
    run_moves (s := { s with editor }) hpage pressed.1 path
  obtain ⟨hafter, hreported⟩ := handle_release (s := led) rfl stop
  refine ⟨editor.graph, s.layout.positions editor.graph, ?_, ?_⟩
  · have hrun : s.run (hold start additive path stop) =
        (s.handle (.press start additive false)).1.run (path.map .move ++ [.release stop]) := rfl
    rw [hrun, hpress, run_concat, hmoves, hafter]
  · rw [hold, events, hevent, hpress, events_append, hquiet, hmoves, events, hreported, events]
    rfl

/-! ## On the background and on a node -/

/-- A press on the background, held along a path: it moves the picture as the last point of the path
says, or else the selection is emptied. -/
structure MovesPicture (s : Session α) (v : View α) (start : Point α) (additive : Bool)
    (path : List (Point α)) (stop : Point α) : Prop where
  /-- The release empties the selection if there was no movement, and nothing else is reported. -/
  events_eq : s.events (hold start additive path stop) = none :: (List.replicate path.length none ++
    [if (reached (s.spot start) (path.map s.spot)).isNone then some .clearSelection else none])
  /-- The graph's origin goes with the pointer. -/
  transform_eq : ∃ w, (s.run (hold start additive path stop)).view = some w ∧ w.transform =
    match reached (s.spot start) (path.map s.spot) with
    | none => v.transform
    | some q => ⟨v.transform.x + (q.x - (s.spot start).x), v.transform.y + (q.y - (s.spot start).y),
        v.transform.k⟩

/-- A press on a node that is drawn at a point, held along a path: it chooses the node, and the node
goes where the last point of the path says. -/
structure MovesNode (s : Session α) (v : View α) (k : NodeKey) (place : Point α)
    (start : Point α) (additive : Bool) (path : List (Point α)) (stop : Point α) : Prop where
  /-- The node is chosen and then moved if there was a movement, and nothing else is reported. -/
  events_eq : s.events (hold start additive path stop) =
    some (.selectNode k additive) :: (List.replicate path.length none ++
      [(reached (s.spot start) (path.map s.spot)).map fun q => .updateNode k
        ⟨place.x + (q.x - (s.spot start).x) / v.transform.k,
          place.y + (q.y - (s.spot start).y) / v.transform.k⟩])
  /-- The picture stays. -/
  transform_eq : ∃ w, (s.run (hold start additive path stop)).view = some w ∧
    w.transform = v.transform

section Hold

variable (hpage : s.page.attached = true) (hview : s.view = some v)
  (hstill : ∀ a, v.going a = false) (start : Point α) (additive : Bool) (path : List (Point α))
  (stop : Point α) (hgrab : v.grabbedEdge? s.editor s.positions (s.spot start) = none)

include hpage hview hstill hgrab

/-- A press on the background moves the picture along, or empties the selection. -/
theorem movesPicture_hold (hnode : v.nodeAt s.editor.graph s.positions (s.spot start) = none)
    (hedge : v.edgeAt s.editor.graph s.positions (s.spot start) = none) :
    MovesPicture s v start additive path stop := by
  obtain ⟨g, p, hafter, hevents⟩ := outcome_hold hpage hview start additive path stop
  have hpress : v.press s.editor s.positions (s.spot start) additive false =
      (v.startPan (s.spot start), none) := by
    simp [View.press, hgrab, hnode, hedge]
  have hdrag : (v.startPan (s.spot start)).going .drag = false := by
    rw [View.going_startPan, hstill]
    rfl
  have hdraft : (v.startPan (s.spot start)).going .draft = false := by
    rw [View.going_startPan, hstill]
    rfl
  rw [hpress] at hafter hevents
  rw [View.releaseEvent_moveAll_of_pan hdrag rfl rfl hdraft] at hevents
  exact ⟨hevents, _, hafter, View.transform_moveAll_of_pan hdrag rfl rfl _⟩

/-- A press on a node moves the node along, or only chooses it. -/
theorem movesNode_hold {k : NodeKey}
    (hnode : v.nodeAt s.editor.graph s.positions (s.spot start) = some k) {place : Point α}
    (hplace : v.displayPoint s.positions k = some place) :
    MovesNode s v k place start additive path stop := by
  obtain ⟨g, p, hafter, hevents⟩ := outcome_hold hpage hview start additive path stop
  have hpress : v.press s.editor s.positions (s.spot start) additive false =
      (v.startDrag s.positions k (s.spot start), some (.selectNode k additive)) := by
    simp [View.press, hgrab, hnode]
  have hpan : (v.startDrag s.positions k (s.spot start)).going .pan = false := by
    rw [View.going_startDrag, hstill]
    rfl
  have hdraft : (v.startDrag s.positions k (s.spot start)).going .draft = false := by
    rw [View.going_startDrag, hstill]
    rfl
  have hdragged (q : Point α) : ((v.startDrag s.positions k (s.spot start)).dragged q).current =
      ⟨place.x + (q.x - (s.spot start).x) / v.transform.k,
        place.y + (q.y - (s.spot start).y) / v.transform.k⟩ := by
    simp only [View.dragged, View.startDrag, hplace, Option.getD_some]
  rw [hpress] at hafter hevents
  rw [View.releaseEvent_moveAll_of_drag rfl rfl rfl hpan hdraft] at hevents
  simp only [hdragged] at hevents
  exact ⟨hevents, _, hafter, View.transform_moveAll_of_drag rfl _⟩

end Hold

/-- With no gesture going on, a press that is held along a path and released moves the picture, or
the node that it hits, exactly if some point of the path is three pixels or more from the press, and
then as the last point says; no gesture is left. -/
theorem hold_exact (hs : s.Still) (hpage : s.page.attached = true) (hview : s.view = some v)
    (start : Point α) (additive : Bool) (path : List (Point α)) (stop : Point α) :
    (s.run (hold start additive path stop)).Still ∧
      (v.grabbedEdge? s.editor s.positions (s.spot start) = none →
        (v.nodeAt s.editor.graph s.positions (s.spot start) = none →
          v.edgeAt s.editor.graph s.positions (s.spot start) = none →
            MovesPicture s v start additive path stop) ∧
        ∀ k, v.nodeAt s.editor.graph s.positions (s.spot start) = some k →
          ∃ place, v.displayPoint s.positions k = some place ∧
            MovesNode s v k place start additive path stop) := by
  have hstill (a : Gesture) : v.going a = false := by
    have hgoing := hs a
    rwa [going, hview] at hgoing
  refine ⟨fun a => ?_, fun hgrab => ⟨fun hnode hedge => ?_, fun k hnode => ?_⟩⟩
  · obtain ⟨g, p, hafter, -⟩ := outcome_hold hpage hview start additive path stop
    rw [going, hafter]
    exact View.going_endGestures
  · exact movesPicture_hold hpage hview hstill start additive path stop hgrab hnode hedge
  · obtain ⟨place, hplace⟩ := View.exists_displayPoint_of_nodeAt hnode
    exact ⟨place, hplace,
      movesNode_hold hpage hview hstill start additive path stop hgrab hnode hplace⟩

/-- The view of the two nodes before anything is done. -/
def pairView : View Float := .ofSize 800.0 600.0

/-- A press on the left node that goes ten pixels to the right and nine back chooses the node and
moves it by one; one on the background that goes two pixels and back just empties the selection. -/
theorem hold_exact_pair :
    pair.Still ∧ pair.page.attached = true ∧ pair.view = some pairView ∧
      MovesNode pair pairView "a" .origin ⟨400.0, 150.0⟩ false
        [⟨410.0, 150.0⟩, ⟨401.0, 150.0⟩] ⟨401.0, 150.0⟩ ∧
      pair.events (hold ⟨400.0, 150.0⟩ false [⟨410.0, 150.0⟩, ⟨401.0, 150.0⟩] ⟨401.0, 150.0⟩) =
        [some (.selectNode "a" false), none, none, some (.updateNode "a" ⟨1.0, 0.0⟩)] ∧
      MovesPicture pair pairView ⟨100.0, 300.0⟩ false
        [⟨102.0, 300.0⟩, ⟨100.0, 300.0⟩] ⟨100.0, 300.0⟩ ∧
      pair.events (hold ⟨100.0, 300.0⟩ false [⟨102.0, 300.0⟩, ⟨100.0, 300.0⟩] ⟨100.0, 300.0⟩) =
        [none, none, none, some .clearSelection] := by
  have hstill : pair.Still := still_start _ _ _ _
  have hview : pair.view = some pairView := by decide +kernel
  have hplace : pairView.displayPoint pair.positions "a" = some .origin := by decide +kernel
  obtain ⟨place, hplace', hnode⟩ := ((hold_exact hstill rfl hview ⟨400.0, 150.0⟩ false
    [⟨410.0, 150.0⟩, ⟨401.0, 150.0⟩] ⟨401.0, 150.0⟩).2 (by decide +kernel)).2 "a"
    (by decide +kernel)
  have hpicture := ((hold_exact hstill rfl hview ⟨100.0, 300.0⟩ false
    [⟨102.0, 300.0⟩, ⟨100.0, 300.0⟩] ⟨100.0, 300.0⟩).2 (by decide +kernel)).1
    (by decide +kernel) (by decide +kernel)
  obtain rfl : place = .origin := Option.some.inj (hplace'.symm.trans hplace)
  exact ⟨hstill, rfl, hview, hnode, by decide +kernel, hpicture, by decide +kernel⟩

end GraphBoard.Session
