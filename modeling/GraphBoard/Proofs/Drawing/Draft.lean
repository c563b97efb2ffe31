import GraphBoard.Proofs.Drawing.Neutral
import GraphBoard.Proofs.Scalar.Exact

/-!
# GraphBoard.Proofs.Drawing.Draft

What the line of an edge being drawn looks like.  It sets its own path, colour, width and dashes, so
in these it looks the same whatever else is drawn; but not where in the dashes it starts.  Special
edges set this and do not take it back, so the line starts in its dashes where they do, if one of
them is drawn before it.

* `LineStyle` — what a line is drawn along and with, when a list of calls has been made;
* `dashOffset_run` — calls that set the start in the dashes, if they do, to one value;
* `style_untilDraft` — the style of the line of an edge being drawn;
* `style_draft_iff` — so two pictures draw the line in the same way exactly if both draw a special
  edge or neither does, unless special edges make no difference.
-/

namespace GraphBoard

variable {α : Type}

/-- Whether a call sets where in the dashes a line starts. -/
def Call.setsDashOffset : Call α → Bool
  | .lineDashOffset _ => true
  | _ => false

namespace Drawing

variable [Scalar α]

/-! ## Styles of lines -/

/-- What a line is drawn along and with. -/
structure LineStyle (α : Type) where
  /-- The path, as it was led. -/
  path : List (Call α)
  /-- Where the points of the path are put. -/
  frame : Frame α
  /-- The colour. -/
  color : Color
  /-- The width. -/
  width : α
  /-- The lengths of dashes and gaps. -/
  dash : List α
  /-- Where in the dashes the line starts. -/
  dashOffset : α

/-- The style of a line after a list of calls. The path is what was done since it was started. -/
def LineStyle.after (takes : Call α → Bool) (c : Context (Style α)) (calls : List (Call α)) :
    LineStyle α :=
  let st := (c.run (Style.change takes) calls).now
  { path := (cut calls).2.getLastD (cut calls).1
    frame := st.frame
    color := st.stroke
    width := st.lineWidth
    dash := st.lineDash
    dashOffset := st.dashOffset }

/-- The calls for the line of an edge being drawn, before the line is drawn. -/
def draftLine (v : View α) (start cursor : Point α) : List (Call α) :=
  [.strokeStyle Color.draft, .lineWidth (1.5 / v.transform.k),
    .setLineDash [6.0 / v.transform.k, 4.0 / v.transform.k], .beginPath, .moveTo start,
    .lineTo cursor]

/-- The calls of a picture before the line of an edge being drawn is drawn. -/
def untilDraft (v : View α) (e : Editor α) (p : Positions α) (grid : List (Call α))
    (start cursor : Point α) : List (Call α) :=
  opening v ++ grid ++ edges v e.graph e.selection p ++ draftLine v start cursor

/-- A picture draws the line of an edge being drawn in a style: the style after everything behind
the line, and after what is set for the line itself. -/
def DrawsDraft (takes : Call α → Bool) (c : Context (Style α)) (v : View α) (e : Editor α)
    (p : Positions α) (l : Layout) (picture : List (Call α)) (style : LineStyle α) : Prop :=
  ∃ d start grid after, v.draft = some d ∧ v.displayPoint p d.source = some start ∧
    grid? v l = some grid ∧
    picture = untilDraft v e p grid start d.cursor ++ .stroke :: after ∧
    style = LineStyle.after takes c (untilDraft v e p grid start d.cursor)

/-- A special edge is drawn: it has a line, and the line is long enough. -/
def DrawsSpecial (v : View α) (g : Graph α) (p : Positions α) : Prop :=
  ∃ x ∈ lines v g p, x.edge.kind = .special ∧ ¬ x.length < smallDistance

instance (v : View α) (g : Graph α) (p : Positions α) : Decidable (DrawsSpecial v g p) :=
  inferInstanceAs (Decidable (∃ x ∈ lines v g p, _))

/-- The style of the line of an edge being drawn. Its start in the dashes is not set for it. -/
def draftStyle (takes : Call α → Bool) (c : Context (Style α)) (v : View α) (g : Graph α)
    (p : Positions α) (start cursor : Point α) : LineStyle α where
  path := [.moveTo start, .lineTo cursor]
  frame := (c.run (Style.change takes) (opening v)).now.frame
  color := Color.draft
  width := 1.5 / v.transform.k
  dash := [6.0 / v.transform.k, 4.0 / v.transform.k]
  dashOffset :=
    if DrawsSpecial v g p ∧ takes (.lineDashOffset (EdgeStyle.ofView v).dashOffset) = true then
      (EdgeStyle.ofView v).dashOffset
    else c.now.dashOffset

/-- A context takes what the line of an edge being drawn sets for itself. -/
structure TakesDraft (takes : Call α → Bool) (v : View α) : Prop where
  color : takes (.strokeStyle Color.draft) = true
  width : takes (.lineWidth (1.5 / v.transform.k)) = true
  dash : takes (.setLineDash [6.0 / v.transform.k, 4.0 / v.transform.k]) = true

/-- In exact arithmetic, a context on a page takes this at every zoom above zero. -/
theorem takesDraft_of_pos {v : View ℝ} (hk : 0 < v.transform.k) :
    TakesDraft Call.makesSense v := by
  have hwidth : 0 < 1.5 / v.transform.k := by positivity
  have hdash : 0 ≤ 6.0 / v.transform.k := by positivity
  have hgap : 0 ≤ 4.0 / v.transform.k := by positivity
  have hzero : (0.0 : ℝ) = 0 := by norm_num
  exact ⟨rfl, by simpa [Call.makesSense, Scalar.isFinite, hzero] using hwidth,
    by simpa [Call.makesSense, Scalar.isFinite, hzero] using ⟨hdash, hgap⟩⟩

/-! ## The start in the dashes -/

section Offset

variable {takes : Call α → Bool} {v : View α} {g : Graph α} {s : Selection} {p : Positions α}

/-- A call sets where the dashes start, or leaves it. -/
theorem dashOffset_step {x : Call α} {o : α} (hkept : x ≠ .save ∧ x ≠ .restore)
    (ho : x.setsDashOffset = true → x = .lineDashOffset o) (c : Context (Style α)) :
    (c.step (Style.change takes) x).now.dashOffset =
      if x.setsDashOffset && takes (.lineDashOffset o) then o else c.now.dashOffset := by
  cases x with
  | save => exact absurd rfl hkept.1
  | restore => exact absurd rfl hkept.2
  | lineDashOffset offset =>
      cases ho rfl
      simp [Context.step, Call.setsDashOffset]
  | _ => simp [Context.step, Call.setsDashOffset]

/-- Calls that set one start in the dashes only: it is the start afterwards if they set it and the
context takes it. -/
theorem dashOffset_run {calls : List (Call α)} {o : α}
    (hkept : ∀ x ∈ calls, x ≠ .save ∧ x ≠ .restore)
    (ho : ∀ x ∈ calls, x.setsDashOffset = true → x = .lineDashOffset o) (c : Context (Style α)) :
    (c.run (Style.change takes) calls).now.dashOffset =
      if calls.any Call.setsDashOffset && takes (.lineDashOffset o) then o
      else c.now.dashOffset := by
  induction calls generalizing c with
  | nil => rfl
  | cons x xs ih =>
      obtain ⟨hx, hxs⟩ := List.forall_mem_cons.mp hkept
      obtain ⟨hox, hoxs⟩ := List.forall_mem_cons.mp ho
      rw [Context.run, List.foldl_cons, ← Context.run, ih hxs hoxs, dashOffset_step hx hox,
        List.any_cons]
      cases x.setsDashOffset <;> cases xs.any Call.setsDashOffset <;>
        cases takes (.lineDashOffset o) <;> rfl

/-- The calls for an edge set the start in the dashes if the edge is special and is drawn. -/
theorem mem_arrow_iff {x : Line α} {y : Call α} (hy : y.setsDashOffset = true) :
    y ∈ arrow v s x.edge x.start x.tip ↔ y = .lineDashOffset (EdgeStyle.ofView v).dashOffset ∧
      x.edge.kind = .special ∧ ¬ x.length < smallDistance := by
  cases y with
  | lineDashOffset o =>
      by_cases hnear : x.length < smallDistance
      · rw [show arrow v s x.edge x.start x.tip = [] from if_pos hnear]
        simp [hnear]
      · rw [show arrow v s x.edge x.start x.tip = _ from if_neg hnear]
        cases x.edge.kind <;> split <;> simp [dashes, arrowhead, handle, circle, hnear]
  | _ => contradiction

/-- The edges set where the dashes start exactly if a special edge is drawn. -/
theorem mem_edges_iff {y : Call α} (hy : y.setsDashOffset = true) :
    y ∈ edges v g s p ↔
      y = .lineDashOffset (EdgeStyle.ofView v).dashOffset ∧ DrawsSpecial v g p := by
  have hlines : y ∈ edges v g s p ↔ ∃ x ∈ lines v g p, y ∈ arrow v s x.edge x.start x.tip := by
    simp only [edges, lines, List.mem_flatMap, List.mem_filterMap, edge_eq, Option.mem_toList]
    constructor
    · rintro ⟨e, he, x, hx, hy⟩
      obtain ⟨rfl, -⟩ := joins_of_line? hx
      exact ⟨x, ⟨x.edge, he, hx⟩, hy⟩
    · rintro ⟨x, ⟨e, he, hx⟩, hy⟩
      obtain ⟨rfl, -⟩ := joins_of_line? hx
      exact ⟨x.edge, he, x, hx, hy⟩
  simp only [hlines, mem_arrow_iff hy]
  constructor
  · rintro ⟨x, hx, rfl, hdrawn⟩
    exact ⟨rfl, x, hx, hdrawn⟩
  · rintro ⟨rfl, x, hx, hdrawn⟩
    exact ⟨x, hx, rfl, hdrawn⟩

end Offset

/-! ## The line of an edge being drawn -/

section Line

variable {takes : Call α → Bool} {v : View α} {e : Editor α} {p : Positions α} {l : Layout}
  {grid : List (Call α)} {c : Context (Style α)}

/-- Calls that leave frames alone leave that of the style alone. -/
theorem KeepsFrame.frame_run {calls : List (Call α)} (h : KeepsFrame calls)
    (c : Context (Style α)) : (c.run (Style.change takes) calls).now.frame = c.now.frame :=
  Context.now_run_of_forall Style.frame h.ne_save_and_ne_restore
    (fun x hx st => Style.frame_change takes st (h x hx)) c

/-- The grid does not set where the dashes start. -/
theorem not_setsDashOffset_grid (hgrid : grid? v l = some grid) :
    ∀ x ∈ grid, x.setsDashOffset = false := by
  obtain ⟨-, rfl⟩ | ⟨xs, ys, -, rfl⟩ := eq_nil_or_lines_of_grid? hgrid
  · exact fun x hx => absurd hx List.not_mem_nil
  · simp only [List.forall_mem_append, List.forall_mem_flatMap]
    simp [Call.setsDashOffset, Grid.vertical, Grid.horizontal]

/-- Behind the line and for it nothing is remembered, nothing gone back to, and no point moved. -/
theorem keepsFrame_untilDraft (hgrid : grid? v l = some grid) (start cursor : Point α) :
    KeepsFrame (grid ++ (edges v e.graph e.selection p ++ draftLine v start cursor)) := by
  refine .append (keepsFrame_grid hgrid) (.append (keepsFrame_edges e.graph) ?_)
  simp [KeepsFrame, Frame.keeps, draftLine]

/-- Up to the line of an edge being drawn, it is set exactly if a special edge is drawn. -/
theorem mem_untilDraft_iff (hgrid : grid? v l = some grid) {start cursor : Point α} {y : Call α}
    (hy : y.setsDashOffset = true) :
    y ∈ grid ++ (edges v e.graph e.selection p ++ draftLine v start cursor) ↔
      y = .lineDashOffset (EdgeStyle.ofView v).dashOffset ∧ DrawsSpecial v e.graph p := by
  have hground : y ∉ grid := fun hmem => by simp [not_setsDashOffset_grid hgrid y hmem] at hy
  have hline : y ∉ draftLine v start cursor := by
    intro hmem
    simp only [draftLine, List.mem_cons, List.not_mem_nil, or_false] at hmem
    obtain rfl | rfl | rfl | rfl | rfl | rfl := hmem <;> contradiction
  simp [mem_edges_iff hy, hground, hline]

/-- The start in the dashes is that of special edges if one is drawn, and if it makes sense. -/
theorem dashOffset_untilDraft (hgrid : grid? v l = some grid) (c : Context (Style α))
    (start cursor : Point α) :
    (c.run (Style.change takes) (untilDraft v e p grid start cursor)).now.dashOffset =
      if DrawsSpecial v e.graph p ∧ takes (.lineDashOffset (EdgeStyle.ofView v).dashOffset) = true
      then (EdgeStyle.ofView v).dashOffset else c.now.dashOffset := by
  have hany : (grid ++ (edges v e.graph e.selection p ++ draftLine v start cursor)).any
      Call.setsDashOffset = true ↔ DrawsSpecial v e.graph p := by
    rw [List.any_eq_true]
    constructor
    · rintro ⟨y, hy, hsets⟩
      exact ((mem_untilDraft_iff hgrid hsets).mp hy).2
    · exact fun hdrawn => ⟨_, (mem_untilDraft_iff hgrid rfl).mpr ⟨rfl, hdrawn⟩, rfl⟩
  have hopening : (c.run (Style.change takes) (opening v)).now.dashOffset = c.now.dashOffset := by
    simp [opening, Context.run, Context.step]
  rw [untilDraft, List.append_assoc, List.append_assoc, Context.run_append,
    dashOffset_run (keepsFrame_untilDraft hgrid start cursor).ne_save_and_ne_restore
      fun y hy hsets => ((mem_untilDraft_iff hgrid hsets).mp hy).1, hopening]
  simp only [Bool.and_eq_true, hany]

/-- The style of that line is what the edges before it leave, and what is set for the line itself.
-/
theorem style_untilDraft (htakes : TakesDraft takes v) (hgrid : grid? v l = some grid)
    (c : Context (Style α)) (start cursor : Point α) :
    LineStyle.after takes c (untilDraft v e p grid start cursor) =
      draftStyle takes c v e.graph p start cursor := by
  -- the line starts a path of its own, so the last figure is its path alone
  have hpath : ∃ figures, cut (untilDraft v e p grid start cursor) =
      ([], figures ++ [[.moveTo start, .lineTo cursor]]) := by
    obtain ⟨ground, -, hground⟩ := draws_grid hgrid
    have hopening : Draws (opening v) [] := rfl
    exact ⟨_, ((hopening.append hground).append (draws_edges v e.graph e.selection p)).append rfl⟩
  have hframe : (c.run (Style.change takes) (untilDraft v e p grid start cursor)).now.frame =
      (c.run (Style.change takes) (opening v)).now.frame := by
    rw [untilDraft, List.append_assoc, List.append_assoc, Context.run_append]
    exact (keepsFrame_untilDraft hgrid start cursor).frame_run _
  obtain ⟨figures, hpath⟩ := hpath
  obtain ⟨hcolor, hwidth, hdash⟩ := htakes
  rw [LineStyle.after, draftStyle, hpath, hframe, dashOffset_untilDraft hgrid, untilDraft,
    Context.run_append]
  simp [draftLine, Context.run, Context.step, hcolor, hwidth, hdash]

/-- Where there is a picture and the node that the edge leaves has a place, the line is drawn. -/
theorem drawsDraft_of_draw (htakes : TakesDraft takes v) (c : Context (Style α)) {d : Draft α}
    (hd : v.draft = some d) {start : Point α} (hstart : v.displayPoint p d.source = some start)
    {gradients : Bool} {picture : List (Call α)}
    (hpicture : v.draw e p l gradients = some picture) :
    DrawsDraft takes c v e p l picture (draftStyle takes c v e.graph p start d.cursor) := by
  obtain ⟨grid, hgrid, rfl⟩ := Option.map_eq_some_iff.mp hpicture
  refine ⟨d, start, grid, .setLineDash [] :: nodes v e.selection p gradients 0 e.graph.nodes ++
    [.restore], hd, hstart, hgrid, ?_, (style_untilDraft htakes hgrid c start d.cursor).symm⟩
  have hdraft : draft v p = draftLine v start d.cursor ++ [.stroke, .setLineDash []] := by
    rw [draft, hd]
    simp only [hstart]
    rfl
  simp only [contents, untilDraft, hdraft, List.append_assoc, List.cons_append, List.nil_append]

/-- The line of an edge being drawn from one point, in two pictures of one view.  Whatever else is
on the boards, the line has the same path, frame, colour, width and dashes.  It looks the same in
all exactly if both pictures draw a special edge or neither does, unless special edges start in
their dashes where a line does anyway, or where the context does not take it. -/
theorem style_draft_iff (htakes : TakesDraft takes v) (c : Context (Style α)) {d : Draft α}
    (hd : v.draft = some d) {e₁ e₂ : Editor α} {p₁ p₂ : Positions α} {start : Point α}
    (hstart₁ : v.displayPoint p₁ d.source = some start)
    (hstart₂ : v.displayPoint p₂ d.source = some start) {l₁ l₂ : Layout}
    {gradients₁ gradients₂ : Bool} {picture₁ picture₂ : List (Call α)}
    (hpicture₁ : v.draw e₁ p₁ l₁ gradients₁ = some picture₁)
    (hpicture₂ : v.draw e₂ p₂ l₂ gradients₂ = some picture₂) :
    ∃ style₁ style₂, DrawsDraft takes c v e₁ p₁ l₁ picture₁ style₁ ∧
      DrawsDraft takes c v e₂ p₂ l₂ picture₂ style₂ ∧
      style₁ = { style₂ with dashOffset := style₁.dashOffset } ∧
      (style₁ = style₂ ↔ (DrawsSpecial v e₁.graph p₁ ↔ DrawsSpecial v e₂.graph p₂) ∨
        takes (.lineDashOffset (EdgeStyle.ofView v).dashOffset) = false ∨
        (EdgeStyle.ofView v).dashOffset = c.now.dashOffset) := by
  refine ⟨_, _, drawsDraft_of_draw htakes c hd hstart₁ hpicture₁,
    drawsDraft_of_draw htakes c hd hstart₂ hpicture₂, rfl, ?_⟩
  -- what is left is the start in the dashes, which is set by special edges only
  simp only [draftStyle, LineStyle.mk.injEq, true_and]
  by_cases hsense : takes (.lineDashOffset (EdgeStyle.ofView v).dashOffset) = true
  · by_cases h₁ : DrawsSpecial v e₁.graph p₁ <;> by_cases h₂ : DrawsSpecial v e₂.graph p₂ <;>
      simp [hsense, h₁, h₂, eq_comm]
  · simp [hsense]

end Line

/-- In the stored layout there is always a picture. -/
theorem exists_draw_stored (v : View α) (e : Editor α) (p : Positions α) (gradients : Bool) :
    ∃ picture, v.draw e p .stored gradients = some picture :=
  Option.isSome_iff_exists.mp ((isSome_draw_iff v e p .stored gradients).mpr nofun)

/-- The nodes of `motherBoard`, without the edge. -/
def unlinkedBoard : Graph Float := .ofItems motherBoard.nodes []

/-- A view in which an edge is being drawn, a quarter of a second after the beginning. -/
def draftView : View Float :=
  { View.ofSize 640 480 with flowTime := 0.25, draft := some ⟨"b", none, ⟨50.0, 80.0⟩⟩ }

/-- The values that are set for the line make sense. -/
theorem takesDraft_draftView : TakesDraft Call.makesSense draftView :=
  ⟨rfl, by decide +kernel, by decide +kernel⟩

/-- With the special edge and without it, the line is not drawn in the same way. -/
theorem style_draft_iff_motherBoard :
    let e₁ : Editor Float := .start motherBoard true
    let e₂ : Editor Float := .start unlinkedBoard true
    let p₁ := Layout.stored.positions e₁.graph
    let p₂ := Layout.stored.positions e₂.graph
    let c : Context (Style Float) := ⟨startStyle, []⟩
    TakesDraft Call.makesSense draftView ∧
      ∃ picture₁ picture₂ style₁ style₂, draftView.draw e₁ p₁ .stored true = some picture₁ ∧
        draftView.draw e₂ p₂ .stored true = some picture₂ ∧
        DrawsDraft Call.makesSense c draftView e₁ p₁ .stored picture₁ style₁ ∧
        DrawsDraft Call.makesSense c draftView e₂ p₂ .stored picture₂ style₂ ∧ style₁ ≠ style₂ := by
  intro e₁ e₂ p₁ p₂ c
  obtain ⟨picture₁, hpicture₁⟩ := exists_draw_stored draftView e₁ p₁ true
  obtain ⟨picture₂, hpicture₂⟩ := exists_draw_stored draftView e₂ p₂ true
  have hstart₁ : draftView.displayPoint p₁ "b" = some ⟨200.0, 0.0⟩ := by decide +kernel
  have hstart₂ : draftView.displayPoint p₂ "b" = some ⟨200.0, 0.0⟩ := by decide +kernel
  obtain ⟨style₁, style₂, hstyle₁, hstyle₂, -, hiff⟩ :=
    style_draft_iff takesDraft_draftView c rfl hstart₁ hstart₂ hpicture₁ hpicture₂
  refine ⟨takesDraft_draftView, picture₁, picture₂, style₁, style₂, hpicture₁, hpicture₂, hstyle₁,
    hstyle₂, fun he => ?_⟩
  have hspecial : DrawsSpecial draftView e₁.graph p₁ ∧ ¬ DrawsSpecial draftView e₂.graph p₂ := by
    decide +kernel
  have hsense : Call.makesSense (.lineDashOffset (EdgeStyle.ofView draftView).dashOffset) = true ∧
      (EdgeStyle.ofView draftView).dashOffset ≠ c.now.dashOffset := by decide +kernel
  obtain hboth | hnone | hsame := hiff.mp he
  · exact hspecial.2 (hboth.mp hspecial.1)
  · simp [hsense.1] at hnone
  · exact hsense.2 hsame

/-- An edge being drawn starts in its dashes where the special edge on the board does. -/
theorem draft_follows_special :
    let e₁ : Editor Float := .start motherBoard true
    let e₂ : Editor Float := .start unlinkedBoard true
    let p₁ := Layout.stored.positions e₁.graph
    let p₂ := Layout.stored.positions e₂.graph
    let c : Context (Style Float) := ⟨startStyle, []⟩
    e₁.graph.Valid ∧ e₂.graph.Valid ∧
      draftView.displayPoint p₁ "b" = draftView.displayPoint p₂ "b" ∧
      ∃ picture₁ picture₂ style₁ style₂, draftView.draw e₁ p₁ .stored true = some picture₁ ∧
        draftView.draw e₂ p₂ .stored true = some picture₂ ∧
        DrawsDraft Call.makesSense c draftView e₁ p₁ .stored picture₁ style₁ ∧
        DrawsDraft Call.makesSense c draftView e₂ p₂ .stored picture₂ style₂ ∧
        style₁.dashOffset = -7.5 ∧ style₂.dashOffset = 0.0 := by
  intro e₁ e₂ p₁ p₂ c
  have hvalid₁ : e₁.graph.Valid := by
    constructor <;> simp [e₁, Editor.start, motherBoard, Graph.ofItems, Graph.keys]
  have hvalid₂ : e₂.graph.Valid := by
    constructor <;> simp [e₂, Editor.start, unlinkedBoard, motherBoard, Graph.ofItems, Graph.keys]
  have hstart₁ : draftView.displayPoint p₁ "b" = some ⟨200.0, 0.0⟩ := by decide +kernel
  have hstart₂ : draftView.displayPoint p₂ "b" = some ⟨200.0, 0.0⟩ := by decide +kernel
  obtain ⟨picture₁, hpicture₁⟩ := exists_draw_stored draftView e₁ p₁ true
  obtain ⟨picture₂, hpicture₂⟩ := exists_draw_stored draftView e₂ p₂ true
  refine ⟨hvalid₁, hvalid₂, hstart₁.trans hstart₂.symm, picture₁, picture₂, _, _, hpicture₁,
    hpicture₂, drawsDraft_of_draw takesDraft_draftView c rfl hstart₁ hpicture₁,
    drawsDraft_of_draw takesDraft_draftView c rfl hstart₂ hpicture₂, ?_, ?_⟩
  all_goals decide +kernel

end Drawing

end GraphBoard
