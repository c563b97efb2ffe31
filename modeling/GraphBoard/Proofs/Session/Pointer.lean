import GraphBoard.Proofs.View.Pointer
import GraphBoard.Proofs.Session.Gesture
import GraphBoard.Proofs.Session.Run

/-!
# GraphBoard.Proofs.Session.Pointer

Where a paste goes. The board remembers the graph point of the pointer's last move, and a paste
puts the copies there.

* `pastesAt_pointer` — what is pasted goes to the point that is remembered, whichever it is;
* `pointer_run_iff` — the point that is remembered is the one that is shown under the pointer,
  unless the move carries the picture along and another point is shown there afterwards;
* `lagging_pair` — that happens: a paste after a pan goes beside the pointer.
-/

namespace GraphBoard

variable {α : Type}

/-- The key pastes at the pointer. -/
theorem Event.ofKey?_paste {name : String} (hname : name = "v" ∨ name = "V") (pointer : Point α) :
    Event.ofKey? name true pointer = some (.paste pointer) := by
  obtain rfl | rfl := hname <;> simp [ofKey?]

namespace Session

variable [Scalar α] {s : Session α} {w : View α} {name : String}

/-- The canvas point at a point of the window. -/
def spot (s : Session α) (client : Point α) : Point α :=
  ⟨client.x - s.page.corner.x, client.y - s.page.corner.y⟩

/-- The canvas has a point at every point of the window. -/
theorem canvasPoint?_eq_spot (hpage : s.page.attached = true) (client : Point α) :
    s.page.canvasPoint? client = some (s.spot client) :=
  if_pos hpage

/-- A key copies what is chosen to a point: the copies of the chosen nodes are moved as the corner
of the box around these nodes is moved onto the point. -/
structure PastesAt (s : Session α) (name : String) (goal : Point α) : Prop where
  reported : ∃ changed, (s.key name true).2.event = some (.paste goal, changed)
  duplicated : ∀ n ns, s.editor.graph.chosenNodes s.editor.selection = n :: ns →
    ∃ number copies, s.editor.graph.Duplicated s.editor.selection goal
      (n.position.corner (ns.map Node.position)) number copies
      (s.key name true).1.editor.graph (s.key name true).1.editor.selection

/-- In use, the key reports a paste at the pointer. -/
theorem key_paste (hview : s.view = some w) (hname : name = "v" ∨ name = "V") :
    s.key name true = s.report { prevented := true } (some (.paste w.pointer)) := by
  simp only [key, hview, Option.map_some, Option.getD_some, Event.ofKey?_paste hname]

/-- The copies are put where the view says that the pointer is. -/
theorem pastesAt_pointer (hs : s.editor.graph.Valid) (hview : s.view = some w)
    (hname : name = "v" ∨ name = "V") : s.PastesAt name w.pointer := by
  have hkey := key_paste hview hname
  constructor
  · rw [hkey]
    exact ⟨_, rfl⟩
  · intro n ns hchosen
    obtain ⟨number, copies, hdup⟩ :=
      Graph.duplicated_duplicate hs s.editor.selection w.pointer hchosen
    have hsome : s.editor.graph.chosenNodes s.editor.selection ≠ [] := by simp [hchosen]
    have heditor : (s.key name true).1.editor = (s.editor.apply (.paste w.pointer)).1 := by
      rw [hkey]
      rfl
    rw [heditor, Editor.apply_paste_of_ne_nil hs w.pointer hsome]
    exact ⟨number, copies, hdup⟩

/-- A move of the pointer is one of the view, at its point of the canvas. -/
theorem view_move {client c : Point α} {v : View α}
    (hpoint : s.page.canvasPoint? client = some c) (hview : s.view = some v) :
    (s.move client).view = some (v.move s.editor.graph s.positions c) := by
  simp only [move, hpoint, updateView, hview, Option.map_some]

/-- After a move the pointer is taken to be where it is, exactly unless the move carried the picture
along and the picture now shows another point there; where graph points tell origins apart, this is
to say that the move left the picture where it was. What is pasted then goes to where the pointer is
taken to be. -/
theorem pointer_run_iff (editor : Editor α) (layout : Layout) (page : Page α) (sizing : Sizing α)
    {inputs : List (Input α)} {client c : Point α} {v : View α} (hvalid : editor.graph.Valid)
    (hinputs : ∀ i ∈ inputs, i.Valid)
    (hpoint : ((start editor layout page sizing).run inputs).page.canvasPoint? client = some c)
    (hview : ((start editor layout page sizing).run inputs).view = some v) :
    let s := ((start editor layout page sizing).run inputs).move client
    ∃ w, s.view = some w ∧
      (w.pointer = w.toGraph c ↔ (v.carries c = true → (v.carried c).toGraph c = v.toGraph c)) ∧
      (View.TellsOrigin v.transform.k → (w.pointer = w.toGraph c ↔ w.transform = v.transform)) ∧
        ∀ name, name = "v" ∨ name = "V" → s.PastesAt name w.pointer := by
  have hstart : (start editor layout page sizing).editor.graph.Valid := by
    rw [editor_start]
    exact hvalid
  have hmoved : (((start editor layout page sizing).run inputs).move client).editor.graph.Valid :=
    valid_handle (i := .move client) (valid_run hstart hinputs) trivial
  have hafter := view_move hpoint hview
  exact ⟨_, hafter, View.pointer_eq_toGraph_move_iff,
    View.pointer_eq_toGraph_move_iff_transform,
    fun name hname => pastesAt_pointer hmoved hafter hname⟩

/-- The left node is chosen, and then the background is pressed. -/
def panInputs : List (Input Float) :=
  [.press ⟨400.0, 150.0⟩ false false, .release ⟨400.0, 150.0⟩, .press ⟨100.0, 300.0⟩ false false]

/-- The view with the background pressed. -/
def pressed : View Float where
  transform := ⟨400.0, 150.0, 1.0⟩
  drag := .idle
  pan := ⟨true, false, ⟨100.0, 300.0⟩, ⟨400.0, 150.0⟩⟩
  draft := none
  hover := none
  pointer := .origin
  width := 800.0
  height := 600.0
  flowTime := 0.0

/-- An empty board in exact arithmetic, on the canvas of the two nodes. -/
noncomputable def exactBoard : Session ℝ :=
  start (.start (.ofItems [] []) true) .stored
    { hasWindow := true
      innerWidth := none
      innerHeight := none
      parent := none
      corner := .origin
      drawable := true
      attached := true }
    { fullscreen := false, width := some 800.0, height := some 600.0 }

/-- A move by one pixel does not carry the picture along, so the pointer is where it should be; and
in exact arithmetic, where the picture is says whether it is. -/
theorem pointer_run_iff_pair :
    let s := (pair.run panInputs).move ⟨101.0, 300.0⟩
    ((pair.run panInputs).view = some pressed ∧ pressed.carries ⟨101.0, 300.0⟩ = false ∧
      ∃ w, s.view = some w ∧
        (w.pointer = w.toGraph ⟨101.0, 300.0⟩ ↔ (pressed.carries ⟨101.0, 300.0⟩ = true →
          (pressed.carried ⟨101.0, 300.0⟩).toGraph ⟨101.0, 300.0⟩ =
            pressed.toGraph ⟨101.0, 300.0⟩)) ∧
          ∀ name, name = "v" ∨ name = "V" → s.PastesAt name w.pointer) ∧
      ∀ client : Point ℝ, ∃ w, (exactBoard.move client).view = some w ∧
        (w.pointer = w.toGraph (exactBoard.spot client) ↔
          w.transform = (View.ofSize 800.0 600.0 : View ℝ).transform) := by
  have hview : (pair.run panInputs).view = some pressed := by decide +kernel
  have hpoint : (pair.run panInputs).page.canvasPoint? ⟨101.0, 300.0⟩ = some ⟨101.0, 300.0⟩ := by
    decide +kernel
  have hkept : pressed.carries ⟨101.0, 300.0⟩ = false := by decide +kernel
  have hinputs : ∀ i ∈ panInputs, i.Valid := by simp [panInputs, Input.Valid]
  refine ⟨⟨hview, hkept, ?_⟩, fun client => ?_⟩
  · rw [pair] at hview hpoint ⊢
    obtain ⟨w, hw, hpointer, -, hpastes⟩ :=
      pointer_run_iff _ _ _ _ valid_pairGraph hinputs hpoint hview
    exact ⟨w, hw, hpointer, hpastes⟩
  · have hempty : (Graph.ofItems [] [] : Graph ℝ).Valid := by
      constructor <;> simp [Graph.ofItems, Graph.keys]
    have htells : View.TellsOrigin (View.ofSize 800.0 600.0 : View ℝ).transform.k :=
      View.tellsOrigin_real (by norm_num [View.ofSize])
    obtain ⟨w, hw, -, hpointer, -⟩ := @pointer_run_iff ℝ _ (.start (.ofItems [] []) true) .stored
      exactBoard.page exactBoard.sizing [] client (exactBoard.spot client)
      (.ofSize 800.0 600.0) hempty
      (by simp) rfl rfl
    exact ⟨w, hw, hpointer htells⟩

/-- A move by a hundred pixels carries the picture along: the point under the pointer is still the
one that was under it at the press, but a hundred pixels beside it is where the paste goes. -/
theorem lagging_pair :
    let s := (pair.run panInputs).move ⟨200.0, 300.0⟩
    pair.editor.graph.Valid ∧
      (s.view.map fun w => (w.pointer, w.toGraph ⟨200.0, 300.0⟩)) =
        some (⟨-200.0, 150.0⟩, ⟨-300.0, 150.0⟩) ∧
      (s.key "v" true).2.event = some (.paste ⟨-200.0, 150.0⟩, true) := by
  have hgraph : pair.editor.graph.Valid := valid_pairGraph
  have hview : (((pair.run panInputs).move ⟨200.0, 300.0⟩).view.map
      fun w => (w.pointer, w.toGraph ⟨200.0, 300.0⟩)) =
        some (⟨-200.0, 150.0⟩, ⟨-300.0, 150.0⟩) := by
    decide +kernel
  have hpaste : (((pair.run panInputs).move ⟨200.0, 300.0⟩).key "v" true).2.event =
      some (.paste ⟨-200.0, 150.0⟩, true) := by
    decide +kernel
  exact ⟨hgraph, hview, hpaste⟩

end Session

end GraphBoard
