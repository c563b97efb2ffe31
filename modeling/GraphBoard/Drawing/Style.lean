import GraphBoard.Drawing.Context

/-!
# GraphBoard.Drawing.Style

What a drawing context paints with, as a part of its state that `save` remembers and `restore`
brings back.  The path is no part of it.

A context does not take every value: it keeps what it has when a number makes no sense, such as the
width of a line that is below zero.  Which calls it takes is a parameter of `Style.change`;
`Call.makesSense` is what contexts on a page go by.
-/

namespace GraphBoard

/-- What a drawing context paints with. -/
structure Style (α : Type) where
  /-- Where points are put. -/
  frame : Frame α
  /-- What shapes and letters are filled with. -/
  fill : Paint
  /-- The colour of lines. -/
  stroke : Color
  /-- The width of lines. -/
  lineWidth : α
  /-- The lengths of dashes and gaps, none for a line without gaps. -/
  lineDash : List α
  /-- Where in the dashes a line starts. -/
  dashOffset : α
  /-- The opacity of everything. -/
  opacity : α
  /-- The size of letters. -/
  font : α
  /-- Where text is relative to its point, from left to right. -/
  textAlign : String
  /-- Where text is relative to its point, from above. -/
  textBaseline : String

namespace Style

variable {α : Type} [Scalar α]

/-- How a call that is taken changes what is painted with. -/
def set (st : Style α) : Call α → Style α
  | .translate shift => { st with frame := st.frame.change (.translate shift) }
  | .scale x y => { st with frame := st.frame.change (.scale x y) }
  | .fillStyle paint => { st with fill := paint }
  | .strokeStyle color => { st with stroke := color }
  | .lineWidth width => { st with lineWidth := width }
  | .setLineDash lengths => { st with lineDash := lengths }
  | .lineDashOffset offset => { st with dashOffset := offset }
  | .globalAlpha opacity => { st with opacity := opacity }
  | .font size => { st with font := size }
  | .textAlign mode => { st with textAlign := mode }
  | .textBaseline mode => { st with textBaseline := mode }
  | _ => st

/-- How a call changes what is painted with, in a context that takes some calls and ignores the
others. -/
def change (takes : Call α → Bool) (st : Style α) (x : Call α) : Style α :=
  if takes x then st.set x else st

variable (takes : Call α → Bool) (st : Style α)

@[simp] theorem opacity_change (x : Call α) : (st.change takes x).opacity =
    match x with
    | .globalAlpha opacity => if takes (.globalAlpha opacity) then opacity else st.opacity
    | _ => st.opacity := by
  rw [change, apply_ite opacity]
  cases x <;> simp [set]

@[simp] theorem lineDash_change (x : Call α) : (st.change takes x).lineDash =
    match x with
    | .setLineDash lengths => if takes (.setLineDash lengths) then lengths else st.lineDash
    | _ => st.lineDash := by
  rw [change, apply_ite lineDash]
  cases x <;> simp [set]

@[simp] theorem stroke_change (x : Call α) : (st.change takes x).stroke =
    match x with
    | .strokeStyle color => if takes (.strokeStyle color) then color else st.stroke
    | _ => st.stroke := by
  rw [change, apply_ite stroke]
  cases x <;> simp [set]

@[simp] theorem lineWidth_change (x : Call α) : (st.change takes x).lineWidth =
    match x with
    | .lineWidth width => if takes (.lineWidth width) then width else st.lineWidth
    | _ => st.lineWidth := by
  rw [change, apply_ite lineWidth]
  cases x <;> simp [set]

@[simp] theorem dashOffset_change (x : Call α) : (st.change takes x).dashOffset =
    match x with
    | .lineDashOffset offset => if takes (.lineDashOffset offset) then offset else st.dashOffset
    | _ => st.dashOffset := by
  rw [change, apply_ite dashOffset]
  cases x <;> simp [set]

/-- A call that leaves frames alone leaves that of the style alone. -/
theorem frame_change {x : Call α} (h : Frame.keeps x = true) :
    (st.change takes x).frame = st.frame := by
  rw [change, apply_ite frame]
  cases x <;> first | exact ite_self _ | cases h

end Style

/-- Whether a number is finite.  One that is not has no difference from itself. -/
def Scalar.isFinite {α : Type} [Scalar α] (x : α) : Bool := x - x ≤ 0.0

/-- Whether the numbers of a call make sense: opacities from zero to one, lines that have a width,
dashes and gaps with lengths, letters with a size, and nothing that is not finite. -/
def Call.makesSense {α : Type} [Scalar α] : Call α → Bool
  | .globalAlpha opacity => 0.0 ≤ opacity && opacity ≤ 1.0
  | .lineWidth width => 0.0 < width && Scalar.isFinite width
  | .setLineDash lengths => lengths.all fun x => 0.0 ≤ x && Scalar.isFinite x
  | .lineDashOffset offset => Scalar.isFinite offset
  | .font size => 0.0 ≤ size && Scalar.isFinite size
  | .translate shift => Scalar.isFinite shift.x && Scalar.isFinite shift.y
  | .scale x y => Scalar.isFinite x && Scalar.isFinite y
  | _ => true

end GraphBoard
