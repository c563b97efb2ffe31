import GraphBoard.Drawing.Call
import GraphBoard.View.Basic
import GraphBoard.View.Outline
import GraphBoard.Editor.Basic

/-!
# GraphBoard.Drawing.Node

How nodes are drawn: a glow behind what is chosen or under the pointer, the underlay, the main
shape, what belongs inside it, and the title.
-/

namespace GraphBoard.Drawing

variable {α : Type} [Scalar α]

/-- The angle of a full turn. -/
def turn : α := 2.0 * Scalar.pi

/-- A full circle as an arc. -/
def circle (center : Point α) (radius : α) : Call α := .arc center radius 0.0 turn

/-! ## Shapes -/

/-- The colour of a kind of node. -/
def kindColor : NodeKind → Color
  | .empty => "#1f77b4"
  | .special => "#d62728"
  | .skinny => "#2ca02c"
  | .poly => "#9467bd"
  | .complexCircle => "#ff7f0e"

/-- A corner of a hexagon, counted clockwise from the right. -/
def hexagonCorner (c : Point α) (e : HalfExtent α) (i : Nat) : Point α :=
  let angle := Scalar.pi / 3.0 * Scalar.ofNat i
  ⟨c.x + e.width * Scalar.cos angle, c.y + e.height * Scalar.sin angle⟩

/-- Lines from corner to corner and back. -/
def polygon (first : Point α) (others : List (Point α)) : List (Call α) :=
  .moveTo first :: others.map .lineTo ++ [.closePath]

/-- The main shape of a kind about a centre, as the only path. -/
def traceShape (c : Point α) (kind : NodeKind) : List (Call α) :=
  let e : HalfExtent α := kind.halfExtent
  .beginPath ::
    match kind with
    | .special =>
      polygon ⟨c.x, c.y - e.height⟩
        [⟨c.x + e.width, c.y⟩, ⟨c.x, c.y + e.height⟩, ⟨c.x - e.width, c.y⟩]
    | .skinny => [.rect ⟨c.x - e.width, c.y - e.height⟩ (e.width * 2.0) (e.height * 2.0)]
    | .poly => polygon (hexagonCorner c e 0) ([1, 2, 3, 4, 5].map (hexagonCorner c e))
    | .empty | .complexCircle => [circle c e.width]

/-! ## What goes with a shape -/

/-- The colours of a glow from inside out. -/
def glowColors (selected : Bool) : Color × Color × Color :=
  if selected then
    ("rgba(255, 255, 255, 0.35)", "rgba(200, 220, 255, 0.105)", "rgba(255, 255, 255, 0)")
  else ("rgba(255, 255, 255, 0.2)", "rgba(200, 220, 255, 0.06)", "rgba(255, 255, 255, 0)")

/-- The glow behind a node. Without a number for the gradient no gradient can be made, and there is
no glow. -/
def glow (c : Point α) (kind : NodeKind) (selected : Bool) (gradient : Option Nat) :
    List (Call α) :=
  let e : HalfExtent α := kind.halfExtent
  let radius := Scalar.max e.width e.height * 1.6
  let (inner, middle, outer) := glowColors selected
  .createRadialGradient c (e.height * 0.3) radius ::
    match gradient with
    | none => []
    | some n =>
      [.addColorStop n 0.0 inner, .addColorStop n 0.6 middle, .addColorStop n 1.0 outer,
        .beginPath, circle c radius, .fillStyle (.gradient n), .fill]

/-- The disc under a child of a special node. -/
def underlay (c : Point α) : Option Underlay → List (Call α)
  | none => []
  | some .specialChild =>
    [.globalAlpha 0.35, .beginPath, circle c (nodeRadius * 1.45),
      .fillStyle (.color (kindColor .special)), .fill, .globalAlpha 1.0]

/-- The main shape, filled and outlined. -/
def shape (c : Point α) (kind : NodeKind) (selected : Bool) (k : α) : List (Call α) :=
  traceShape c kind ++
    [.fillStyle (.color (kindColor kind)), .fill,
      .strokeStyle (if selected then Color.selected else Color.outline),
      .lineWidth (if selected then 3.0 / k else 1.0 / k), .stroke]

/-- The ring inside a circle. -/
def ring (c : Point α) (kind : NodeKind) (k : α) : List (Call α) :=
  match kind with
  | .complexCircle =>
    [.beginPath, circle c (nodeRadius * 0.6), .strokeStyle Color.ring, .lineWidth (1.5 / k),
      .stroke]
  | _ => []

/-- The title, inside a wide box and under any other shape. Letters get no larger on the screen as
long as the zoom is not small. -/
def title (c : Point α) (kind : NodeKind) (text : String) (k : α) : List (Call α) :=
  if text.isEmpty then []
  else
    let e : HalfExtent α := kind.halfExtent
    [.fillStyle (.color Color.white), .font (11.0 / Scalar.max k 0.5), .textAlign "center",
      .textBaseline "middle",
      match kind with
      | .skinny => .fillText text c (some (e.width * 2.0 - 8.0))
      | _ => .fillText text ⟨c.x, c.y + e.height + 10.0⟩ none]

/-! ## Nodes -/

/-- Draws a node at a point. -/
def node (v : View α) (s : Selection) (gradient : Option Nat) (n : Node α) (c : Point α) :
    List (Call α) :=
  let k := v.transform.k
  let selected := s.hasNode n.key
  (if v.hover == some n.key || selected then glow c n.kind selected gradient else []) ++
    underlay c n.underlay ++ shape c n.kind selected k ++ ring c n.kind k ++
    title c n.kind n.title k

/-- Whether a node glows. -/
def glows (v : View α) (s : Selection) (n : Node α) : Bool :=
  v.hover == some n.key || s.hasNode n.key

/-- Draws nodes one above the other, those without a place left out. The gradients made are
numbered from `made` on, if any can be made. -/
def nodes (v : View α) (s : Selection) (p : Positions α) (gradients : Bool) :
    (made : Nat) → List (Node α) → List (Call α)
  | _, [] => []
  | made, n :: ns =>
    match v.displayPoint p n.key with
    | none => nodes v s p gradients made ns
    | some c =>
      node v s (if gradients then some made else none) n c ++
        nodes v s p gradients (if gradients && glows v s n then made + 1 else made) ns

end GraphBoard.Drawing
