import GraphBoard.Session.Page
import GraphBoard.Drawing.Picture
import GraphBoard.Editor.Shortcut
import GraphBoard.View.Gesture

/-!
# GraphBoard.Session.Basic

A board in use: an editor and a layout, shown by a view on the canvas of a page. Inputs of the user
and of the page go to the view, the view's events go to the editor, and the picture is drawn anew
whenever an animation frame is due.

Setting the canvas up makes a new view and asks for a first frame. A frame that was asked for before
is not taken back, but it has nothing left to do; `staleFrames` counts such requests.
-/

namespace GraphBoard

/-- A board in use. -/
structure Session (α : Type) where
  /-- The editor of the board. -/
  editor : Editor α
  /-- The layout. -/
  layout : Layout
  /-- The page. -/
  page : Page α
  /-- The size that is wanted for the canvas. -/
  sizing : Sizing α
  /-- The view, once the canvas could be set up. -/
  view : Option (View α)
  /-- The width of the canvas in pixels. -/
  canvasWidth : Nat
  /-- The height of the canvas in pixels. -/
  canvasHeight : Nat
  /-- Whether the view waits for a frame. -/
  awaitsFrame : Bool
  /-- How many other requests for a frame there are. -/
  staleFrames : Nat
  /-- Whether the view follows the size of the window. -/
  followsWindow : Bool

namespace Session

variable {α : Type} [Scalar α]

/-- The points where the nodes are drawn. -/
def positions (s : Session α) : Positions α := s.layout.positions s.editor.graph

/-- How many requests for a frame there are. -/
def frames (s : Session α) : Nat := s.staleFrames + if s.awaitsFrame then 1 else 0

/-! ## The canvas -/

/-- Gives the canvas a size. -/
def sized (s : Session α) (size : α × α) : Session α :=
  { s with canvasWidth := Scalar.pixels size.1, canvasHeight := Scalar.pixels size.2 }

/-- Makes a new view of a size and asks for its first frame. -/
def withView (s : Session α) (size : α × α) : Session α :=
  { s with
    view := some (.ofSize size.1 size.2)
    staleFrames := s.frames
    awaitsFrame := true
    followsWindow := s.sizing.fullscreen }

/-- Sets the canvas up, if there is one and a window. A canvas that cannot be drawn on still takes
its size. -/
def setUp (s : Session α) : Session α :=
  if s.page.attached && s.page.hasWindow then
    let size := s.page.canvasSize s.sizing
    let s := s.sized size
    if s.page.drawable then s.withView size else s
  else s

/-- Starts using a board. -/
def start (editor : Editor α) (layout : Layout) (page : Page α) (sizing : Sizing α) : Session α :=
  setUp
    { editor, layout, page, sizing
      view := none
      canvasWidth := 0
      canvasHeight := 0
      awaitsFrame := false
      staleFrames := 0
      followsWindow := false }

/-! ## Inputs -/

/-- What the user, the page or the program around it does. -/
inductive Input (α : Type) where
  /-- A button is pressed at a point of the window. -/
  | press (client : Point α) (additive shift : Bool)
  /-- The pointer moves to a point of the window. -/
  | move (client : Point α)
  /-- A button is released at a point of the window. -/
  | release (client : Point α)
  /-- The pointer leaves the canvas. -/
  | leave
  /-- The wheel is turned at a point of the window. -/
  | wheel (client : Point α) (delta : α)
  /-- A key is pressed. -/
  | key (name : String) (modifier : Bool)
  /-- An animation frame is due. -/
  | frame
  /-- The window takes another size. -/
  | resize (innerWidth innerHeight : Option α)
  /-- The window disappears or comes back. -/
  | window (present : Bool)
  /-- The canvas is taken off the page or put there. -/
  | attach (present : Bool)
  /-- Another layout is chosen. -/
  | layout (l : Layout)
  /-- A node is to be brought to the middle. -/
  | reveal (key : NodeKey)
  /-- The editor is used directly. -/
  | edit (action : Editor.Action α)

/-- What comes of an input. -/
structure Outcome (α : Type) where
  /-- The event that the view reported, and whether the editor carried it out. -/
  event : Option (Event α × Bool) := none
  /-- What the editor answered when it was used directly. -/
  reply : Option Editor.Reply := none
  /-- Whether the canvas was given the focus. -/
  focused : Bool := false
  /-- Whether the page was kept from handling the input itself. -/
  prevented : Bool := false
  /-- The calls of the picture that was drawn. -/
  calls : List (Call α) := []

/-- Hands an event of the view to the editor. -/
def report (s : Session α) (outcome : Outcome α) : Option (Event α) → Session α × Outcome α
  | none => (s, outcome)
  | some e =>
    let (editor, changed) := s.editor.apply e
    ({ s with editor }, { outcome with event := some (e, changed) })

/-- Changes the view, if there is one. -/
def updateView (s : Session α) (f : View α → View α) : Session α := { s with view := s.view.map f }

/-- A button is pressed: the canvas takes the focus. -/
def press (s : Session α) (client : Point α) (additive shift : Bool) : Session α × Outcome α :=
  match s.page.canvasPoint? client with
  | none => (s, {})
  | some c =>
    match s.view with
    | none => (s, { focused := true })
    | some v =>
      let (v, event) := v.press s.editor s.positions c additive shift
      { s with view := some v }.report { focused := true } event

/-- The pointer moves. -/
def move (s : Session α) (client : Point α) : Session α :=
  match s.page.canvasPoint? client with
  | none => s
  | some c => s.updateView fun v => v.move s.editor.graph s.positions c

/-- A button is released. -/
def release (s : Session α) (client : Point α) : Session α × Outcome α :=
  match s.view with
  | none => (s, {})
  | some v =>
    let (v, event) := v.release s.editor.graph s.positions (s.page.canvasPoint? client)
    { s with view := some v }.report {} event

/-- The wheel is turned. -/
def wheel (s : Session α) (client : Point α) (delta : α) : Session α :=
  match s.page.canvasPoint? client with
  | none => s
  | some c => s.updateView fun v => v.wheel c delta

/-- A key is pressed. Keys that mean nothing to the board are left to the page. -/
def key (s : Session α) (name : String) (modifier : Bool) : Session α × Outcome α :=
  let pointer := (s.view.map View.pointer).getD .origin
  match Event.ofKey? name modifier pointer with
  | none => (s, {})
  | some e => s.report { prevented := true } (some e)

/-- The time from one frame to the next. -/
def frameTime : α := 0.016

/-- An animation frame is due: time passes, the picture is drawn, and the next frame is asked for if
there is a window to ask. A picture that has no end (`View.draw` has none) is never done; no calls
stand for it. -/
def frame (s : Session α) : Session α × List (Call α) :=
  let s' := { s with staleFrames := 0 }
  match s.view with
  | some v =>
    if s.awaitsFrame then
      let v := v.tick frameTime
      ({ s' with view := some v, awaitsFrame := s.page.hasWindow },
        (v.draw s.editor s.positions s.layout true).getD [])
    else (s', [])
  | none => (s', [])

/-- The window takes another size; the canvas goes with it if it fills the window. -/
def resize (s : Session α) (innerWidth innerHeight : Option α) : Session α :=
  let s := { s with page := { s.page with innerWidth, innerHeight } }
  if s.followsWindow then
    match s.page.windowSize? with
    | none => s
    | some size => (s.sized size).updateView fun v => v.resize size.1 size.2
  else s

/-- The canvas is taken off the page, or put there and set up anew. -/
def attach (s : Session α) (present : Bool) : Session α :=
  setUp { s with page := { s.page with attached := present } }

/-- Brings a node to the middle of the view. -/
def reveal (s : Session α) (k : NodeKey) : Session α :=
  match s.positions.get? k with
  | none => s
  | some p => s.updateView fun v => v.centerOn p

/-- What an input does, and what comes of it. -/
def handle (s : Session α) : Input α → Session α × Outcome α
  | .press client additive shift => s.press client additive shift
  | .move client => (s.move client, {})
  | .release client => s.release client
  | .leave => (s.updateView View.leave, {})
  | .wheel client delta => (s.wheel client delta, { prevented := true })
  | .key name modifier => s.key name modifier
  | .frame => let (s, calls) := s.frame; (s, { calls })
  | .resize innerWidth innerHeight => (s.resize innerWidth innerHeight, {})
  | .window present => ({ s with page := { s.page with hasWindow := present } }, {})
  | .attach present => (s.attach present, {})
  | .layout l => ({ s with layout := l }, {})
  | .reveal k => (s.reveal k, {})
  | .edit action =>
    let (editor, reply) := s.editor.perform action
    ({ s with editor }, { reply := some reply })

/-- The session after a run of inputs. -/
def run (s : Session α) (inputs : List (Input α)) : Session α :=
  inputs.foldl (fun s i => (s.handle i).1) s

end Session

end GraphBoard
