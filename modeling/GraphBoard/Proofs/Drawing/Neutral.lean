import GraphBoard.Drawing.Style
import GraphBoard.Proofs.Drawing.Whole
import GraphBoard.Scalar.Double

/-!
# GraphBoard.Proofs.Drawing.Neutral

What is set for one item of a picture does not show in another.  Between items the context paints
with full opacity and unbroken lines; an underlay and a dashed line set something else and take it
back at once.

* `Tidy` — calls that begin and end like this, and do on the way only what is allowed;
* `tidy_calls` — the calls of every item are tidy, and so those of many items are
  (`allows_of_mem_trace`);
* `itemized_contents` — the board falls into items;
* `draw_neutral` — so a picture paints faintly only in underlays and with dashes only along special
  edges and the edge being drawn, and leaves nothing behind but the colour of the background.
-/

namespace GraphBoard

variable {α : Type}

/-- Whether a call paints something. -/
def Call.paints : Call α → Bool
  | .fillRect _ _ _ | .fill | .stroke | .fillText _ _ _ => true
  | _ => false

/-- Whether a call sets neither the opacity nor dashes, and neither remembers nor goes back. -/
def Call.quiet : Call α → Bool
  | .globalAlpha _ | .setLineDash _ | .save | .restore => false
  | _ => true

/-- Everything is painted with full opacity, and lines have no gaps. -/
structure Style.Neutral [Scalar α] (st : Style α) : Prop where
  opacity_eq : st.opacity = 1.0
  lineDash_eq : st.lineDash = []

namespace Drawing

variable [Scalar α]

/-! ## Items -/

/-- What belongs together in a picture. -/
inductive Item (α : Type) where
  /-- The beginning. -/
  | opening
  /-- The disc under a node that is drawn at a point. -/
  | underlay (n : Node α) (c : Point α)
  /-- The shaft of an edge. -/
  | shaft (x : Line α)
  /-- The line of an edge that is being drawn. -/
  | draft
  /-- Anything else. -/
  | other (calls : List (Call α))
  /-- The end. -/
  | closing

namespace Item

/-- The calls of an item. -/
def calls (v : View α) (p : Positions α) : Item α → List (Call α)
  | opening => Drawing.opening v
  | underlay n c => Drawing.underlay c n.underlay
  | shaft x => dashes (.ofView v) x.edge.kind ++ .beginPath :: x.shaft v ++ [.setLineDash []]
  | draft => Drawing.draft v p
  | other calls => calls
  | closing => [.restore]

/-- An item is one of a board: an underlay is that of the child of a special node, a shaft that of
an edge, and other calls set neither the opacity nor dashes. -/
def Belongs (v : View α) (e : Editor α) (p : Positions α) : Item α → Prop
  | opening | draft | closing => True
  | underlay n c =>
    n ∈ e.graph.nodes ∧ n.underlay = some .specialChild ∧ v.displayPoint p n.key = some c
  | shaft x => x ∈ lines v e.graph p
  | other calls => ∀ x ∈ calls, x.quiet = true

/-- Whether an item is filled faintly. -/
def Faint : Item α → Prop
  | underlay _ _ => True
  | _ => False

/-- Whether an item is a line with gaps. -/
def Dashed : Item α → Prop
  | shaft x => x.edge.kind = .special
  | draft => True
  | _ => False

/-- How an item may be painted: with full opacity unless it is filled faintly, and with unbroken
lines unless it is a line with gaps. -/
def Allows (i : Item α) (st : Style α) (x : Call α) : Prop :=
  (x.paints = true → st.opacity = 1.0 ∨ i.Faint ∧ x = .fill) ∧
    (x = .stroke → st.lineDash = [] ∨ i.Dashed)

/-- Each call of a list of items, with its item and with the style that it finds. -/
def trace (takes : Call α → Bool) (v : View α) (p : Positions α) :
    Context (Style α) → List (Item α) → List (Item α × Style α × Call α)
  | _, [] => []
  | c, i :: is =>
    (c.trace (Style.change takes) (i.calls v p)).map (i, ·) ++
      trace takes v p (c.run (Style.change takes) (i.calls v p)) is

end Item

/-- The trace of items in turn is that of the first ones, and then that of the others from where
these lead. -/
theorem Item.trace_append (takes : Call α → Bool) (v : View α) (p : Positions α)
    (c : Context (Style α)) (is js : List (Item α)) :
    Item.trace takes v p c (is ++ js) =
      Item.trace takes v p c is ++
        Item.trace takes v p (c.run (Style.change takes) (is.flatMap (Item.calls v p))) js := by
  induction is generalizing c with
  | nil => rfl
  | cons i is ih =>
      rw [List.cons_append, Item.trace, Item.trace, ih, List.append_assoc, List.flatMap_cons,
        Context.run_append]

/-- The trace of items is that of their calls, with the items beside them. -/
theorem Item.map_snd_trace (takes : Call α → Bool) (v : View α) (p : Positions α)
    (c : Context (Style α)) (items : List (Item α)) :
    (Item.trace takes v p c items).map Prod.snd =
      c.trace (Style.change takes) (items.flatMap (Item.calls v p)) := by
  induction items generalizing c with
  | nil => rfl
  | cons i is ih =>
      rw [Item.trace, List.map_append, ih, List.map_map, List.flatMap_cons, Context.trace_append]
      exact congrArg (· ++ _) (List.map_id _)

/-! ## Tidy calls -/

/-- A context takes the values that undo all others, full opacity and a line without gaps, and the
colour of the background. -/
structure TakesBack (takes : Call α → Bool) : Prop where
  opacity : takes (.globalAlpha 1.0) = true
  lineDash : takes (.setLineDash []) = true
  background : takes (.fillStyle (.color Color.background)) = true

variable {takes : Call α → Bool} {v : View α} {e : Editor α} {p : Positions α}

/-- From a neutral style on every call finds a style in which it is allowed, and the style is
neutral in the end. -/
def Tidy (takes : Call α → Bool) (allowed : Style α → Call α → Prop) (calls : List (Call α)) :
    Prop :=
  ∀ c : Context (Style α), c.now.Neutral →
    (∀ o ∈ c.trace (Style.change takes) calls, allowed o.1 o.2) ∧
      (c.run (Style.change takes) calls).now.Neutral

/-- A quiet call leaves a neutral style neutral. -/
theorem neutral_step {c : Context (Style α)} (hc : c.now.Neutral) {x : Call α}
    (hx : x.quiet = true) : (c.step (Style.change takes) x).now.Neutral := by
  obtain ⟨hopacity, hdash⟩ := hc
  cases x with
  | globalAlpha opacity | setLineDash lengths | save | restore => contradiction
  | _ => exact ⟨by simpa [Context.step] using hopacity, by simpa [Context.step] using hdash⟩

/-- Quiet calls are tidy if a neutral style allows them. -/
theorem tidy_of_quiet {allowed : Style α → Call α → Prop} {calls : List (Call α)}
    (hquiet : ∀ x ∈ calls, x.quiet = true)
    (hallowed : ∀ st : Style α, st.Neutral → ∀ x, allowed st x) : Tidy takes allowed calls := by
  intro c hc
  induction calls generalizing c with
  | nil => exact ⟨fun o ho => absurd ho List.not_mem_nil, hc⟩
  | cons x xs ih =>
      obtain ⟨hx, hxs⟩ := List.forall_mem_cons.mp hquiet
      obtain ⟨hrest, hend⟩ := ih hxs _ (neutral_step hc hx)
      exact ⟨List.forall_mem_cons.mpr ⟨hallowed c.now hc x, hrest⟩, hend⟩

/-- The opening of a picture is tidy. -/
theorem tidy_opening : Tidy takes (Item.Allows .opening) (opening v) := by
  rintro c ⟨hopacity, hdash⟩
  refine ⟨?_, ?_⟩
  · simp [opening, Context.trace, Context.step, Item.Allows, Call.paints, hopacity]
  · constructor <;> simpa [opening, Context.run, Context.step]

/-- The underlay of a child sets the opacity back. -/
theorem tidy_underlay (htakes : TakesBack takes) (n : Node α) (c : Point α) :
    Tidy takes (Item.Allows (.underlay n c)) (underlay c (some .specialChild)) := by
  rintro ctx ⟨hopacity, hdash⟩
  refine ⟨?_, ?_⟩
  · simp [underlay, circle, Context.trace, Context.step, Item.Allows, Item.Faint, Call.paints]
  · constructor <;> simp [underlay, circle, Context.run, Context.step, htakes.opacity, hdash]

/-- A shaft sets the dashes back. -/
theorem tidy_shaft (htakes : TakesBack takes) (x : Line α) :
    Tidy takes (Item.Allows (.shaft x)) ((Item.shaft x).calls v p) := by
  rintro c ⟨hopacity, hdash⟩
  refine ⟨?_, ?_⟩
  · cases hkind : x.edge.kind <;>
      simp [Item.calls, hkind, dashes, Line.shaft, Context.trace, Context.step, Item.Allows,
        Item.Dashed, Call.paints, hopacity, hdash]
  · cases hkind : x.edge.kind <;> constructor <;>
      simp [Item.calls, hkind, dashes, Line.shaft, Context.run, Context.step, htakes.lineDash,
        hopacity]

/-- An edge being drawn sets the dashes back. -/
theorem tidy_draft (htakes : TakesBack takes) :
    Tidy takes (Item.Allows .draft) (draft v p) := by
  intro c hc
  rw [draft]
  split
  · exact ⟨fun o ho => absurd ho List.not_mem_nil, hc⟩
  · split
    · exact ⟨fun o ho => absurd ho List.not_mem_nil, hc⟩
    · refine ⟨?_, ?_⟩
      · simp [Context.trace, Context.step, Item.Allows, Item.Dashed, Call.paints, hc.opacity_eq]
      · constructor <;> simp [Context.run, Context.step, htakes.lineDash, hc.opacity_eq]

/-- The calls of every item but the end are tidy. -/
theorem tidy_calls (htakes : TakesBack takes) {i : Item α} (hi : i.Belongs v e p)
    (hinner : i ≠ .closing) : Tidy takes i.Allows (i.calls v p) := by
  cases i with
  | opening => exact tidy_opening
  | underlay n c =>
      obtain ⟨-, hchild, -⟩ := hi
      rw [Item.calls, hchild]
      exact tidy_underlay htakes n c
  | shaft x => exact tidy_shaft htakes x
  | draft => exact tidy_draft htakes
  | other calls =>
      exact tidy_of_quiet hi fun st hst x =>
        ⟨fun _ => Or.inl hst.opacity_eq, fun _ => Or.inl hst.lineDash_eq⟩
  | closing => contradiction

/-- Items one after the other are painted as they may be, since each leaves the style neutral. -/
theorem allows_of_mem_trace (htakes : TakesBack takes) {items : List (Item α)}
    (hitems : ∀ i ∈ items, i.Belongs v e p ∧ i ≠ .closing) {c : Context (Style α)}
    (hc : c.now.Neutral) : ∀ o ∈ Item.trace takes v p c items, o.1.Allows o.2.1 o.2.2 := by
  induction items generalizing c with
  | nil => exact fun o ho => absurd ho List.not_mem_nil
  | cons i is ih =>
      obtain ⟨⟨hi, hinner⟩, his⟩ := List.forall_mem_cons.mp hitems
      obtain ⟨hallows, hend⟩ := tidy_calls htakes hi hinner c hc
      rw [Item.trace, List.forall_mem_append, List.forall_mem_map]
      exact ⟨hallows, ih his hend⟩

/-! ## The items of a board -/

/-- Calls fall into items of a board, none of them the end. -/
def Itemized (v : View α) (e : Editor α) (p : Positions α) (calls : List (Call α)) : Prop :=
  ∃ items : List (Item α), items.flatMap (Item.calls v p) = calls ∧
    ∀ i ∈ items, i.Belongs v e p ∧ i ≠ .closing

namespace Itemized

theorem nil : Itemized v e p [] := ⟨[], rfl, nofun⟩

theorem one {i : Item α} (hi : i.Belongs v e p) (hinner : i ≠ .closing) :
    Itemized v e p (i.calls v p) :=
  ⟨[i], List.append_nil _, List.forall_mem_singleton.mpr ⟨hi, hinner⟩⟩

/-- Quiet calls are one item. -/
theorem other {calls : List (Call α)} (h : ∀ x ∈ calls, x.quiet = true) : Itemized v e p calls :=
  one (i := .other calls) h nofun

theorem append {xs ys : List (Call α)} (hx : Itemized v e p xs) (hy : Itemized v e p ys) :
    Itemized v e p (xs ++ ys) := by
  obtain ⟨is, rfl, his⟩ := hx
  obtain ⟨js, rfl, hjs⟩ := hy
  exact ⟨is ++ js, List.flatMap_append, List.forall_mem_append.mpr ⟨his, hjs⟩⟩

theorem flatMap {β : Type} {f : β → List (Call α)} {bs : List β}
    (h : ∀ b ∈ bs, Itemized v e p (f b)) : Itemized v e p (bs.flatMap f) := by
  induction bs with
  | nil => exact nil
  | cons b bs ih =>
      obtain ⟨hb, hbs⟩ := List.forall_mem_cons.mp h
      exact hb.append (ih hbs)

end Itemized

/-- The grid falls into items. -/
theorem itemized_grid {l : Layout} {grid : List (Call α)} (h : grid? v l = some grid) :
    Itemized v e p grid := by
  obtain ⟨-, rfl⟩ | ⟨xs, ys, -, rfl⟩ := eq_nil_or_lines_of_grid? h
  · exact .nil
  · refine .append (.append (.append (.other ?_) (.flatMap fun x _ => .other ?_))
      (.flatMap fun y _ => .other ?_)) (.other ?_)
    all_goals simp [Call.quiet, Grid.vertical, Grid.horizontal]

/-- A line that is long enough is drawn as a shaft, with quiet calls behind it. -/
theorem arrow_eq {s : Selection} {x : Line α} (hfar : ¬ x.length < smallDistance) :
    arrow v s x.edge x.start x.tip =
      let st := EdgeStyle.ofView v
      let selected := s.hasEdge x.edge.key
      let color := if selected then Color.selected else Color.edge
      [.strokeStyle color, .lineWidth (if selected then st.lineWidth * 2.0 else st.lineWidth)] ++
        (Item.shaft x).calls v p ++
        (.fillStyle (.color color) :: arrowhead x.tip x.direction.x x.direction.y st.arrow) ++
        if selected && s.singleEdge? == some x.edge.key then
          handle x.tip v.transform.k st.lineWidth else [] := by
  rw [show arrow v s x.edge x.start x.tip = _ from if_neg hfar]
  simp only [Item.calls, Line.shaft, List.append_assoc]
  rfl

/-- The line of an edge falls into items of the board. -/
theorem itemized_arrow {x : Line α} (hx : x ∈ lines v e.graph p) :
    Itemized v e p (arrow v e.selection x.edge x.start x.tip) := by
  by_cases hnear : x.length < smallDistance
  · rw [show arrow v e.selection x.edge x.start x.tip = [] from if_pos hnear]
    exact .nil
  · have hshaft : Itemized v e p ((Item.shaft x).calls v p) := .one hx nofun
    rw [arrow_eq hnear]
    refine .append (.append (.append (.other ?_) hshaft) (.other ?_)) (.other ?_)
    · simp [Call.quiet]
    · simp [Call.quiet, arrowhead]
    · split <;> simp [Call.quiet, handle, circle]

/-- The edges fall into items of the board. -/
theorem itemized_edges : Itemized v e p (edges v e.graph e.selection p) := by
  refine .flatMap fun f hf => ?_
  rw [edge_eq]
  cases hline : line? v e.graph p f with
  | none => exact .nil
  | some x =>
      obtain ⟨rfl, -⟩ := joins_of_line? hline
      exact .append (itemized_arrow (List.mem_filterMap.mpr ⟨x.edge, hf, hline⟩)) .nil

/-- A node falls into items of the board. -/
theorem itemized_node {n : Node α} (hn : n ∈ e.graph.nodes) {c : Point α}
    (hc : v.displayPoint p n.key = some c) (gradient : Option Nat) :
    Itemized v e p (node v e.selection gradient n c) := by
  have hunderlay : Itemized v e p (underlay c n.underlay) := by
    rcases hchild : n.underlay with _ | ⟨⟨⟩⟩
    · exact .nil
    · have hone := Itemized.one (i := .underlay n c) ⟨hn, hchild, hc⟩ nofun
      rwa [Item.calls, hchild] at hone
  rw [node_eq, behind, inFront]
  refine .append (.append (.append (.other ?_) hunderlay) (.other ?_))
    (.append (.other ?_) (.other ?_))
  · cases glows v e.selection n <;> cases gradient <;> simp [Call.quiet, glow, circle]
  · cases n.kind <;> simp [Call.quiet, shape, traceShape, polygon, circle]
  · cases n.kind <;> simp [Call.quiet, ring, circle]
  · rw [title]
    cases n.title.isEmpty <;> cases n.kind <;> simp [Call.quiet]

/-- The nodes fall into items of the board. -/
theorem itemized_nodes (gradients : Bool) (made : Nat) {ns : List (Node α)}
    (hns : ∀ n ∈ ns, n ∈ e.graph.nodes) :
    Itemized v e p (nodes v e.selection p gradients made ns) := by
  induction ns generalizing made with
  | nil => exact .nil
  | cons n ns ih =>
      obtain ⟨hn, hrest⟩ := List.forall_mem_cons.mp hns
      rw [nodes]
      cases hc : v.displayPoint p n.key with
      | none => exact ih made hrest
      | some c => exact .append (itemized_node hn hc _) (ih _ hrest)

/-- What is drawn over the grid falls into items of the board. -/
theorem itemized_contents (v : View α) (e : Editor α) (p : Positions α) (gradients : Bool) :
    Itemized v e p (contents v e p gradients) :=
  .append (.append itemized_edges (.one (i := .draft) trivial nofun))
    (itemized_nodes gradients 0 fun _ => id)

/-! ## The picture -/

/-- A whole picture falls into items of the board, which are all painted as they may be. -/
theorem items_picture (htakes : TakesBack takes) {c : Context (Style α)} (hc : c.now.Neutral)
    {l : Layout} {grid : List (Call α)} (hgrid : grid? v l = some grid) (gradients : Bool) :
    ∃ items : List (Item α),
      items.flatMap (Item.calls v p) = opening v ++ grid ++ contents v e p gradients ++ [.restore] ∧
      (∀ i ∈ items, i.Belongs v e p) ∧
      ∀ o ∈ Item.trace takes v p c items, o.1.Allows o.2.1 o.2.2 := by
  obtain ⟨items, hcalls, hitems⟩ :
      Itemized v e p (opening v ++ grid ++ contents v e p gradients) :=
    .append (.append (.one (i := .opening) trivial nofun) (itemized_grid hgrid))
      (itemized_contents v e p gradients)
  refine ⟨items ++ [.closing], ?_, ?_, ?_⟩
  · rw [List.flatMap_append, hcalls]
    rfl
  · rw [List.forall_mem_append, List.forall_mem_singleton]
    exact ⟨fun i hi => (hitems i hi).1, trivial⟩
  · rw [Item.trace_append, List.forall_mem_append]
    -- going back is not painting, whatever it goes back to
    exact ⟨allows_of_mem_trace htakes hitems hc, List.forall_mem_singleton.mpr ⟨nofun, nofun⟩⟩

/-- Within the frame that the opening sets, nothing is remembered and nothing gone back to. -/
theorem ne_save_and_ne_restore {l : Layout} {grid : List (Call α)} (hgrid : grid? v l = some grid)
    (gradients : Bool) :
    ∀ x ∈ grid ++ contents v e p gradients, x ≠ .save ∧ x ≠ .restore :=
  ((keepsFrame_grid hgrid).append (keepsFrame_contents e gradients)).ne_save_and_ne_restore

/-- A picture leaves the context as it was, but for the colour that the background is filled with.
-/
theorem run_picture (htakes : TakesBack takes) (c : Context (Style α)) {l : Layout}
    {grid : List (Call α)} (hgrid : grid? v l = some grid) (gradients : Bool) :
    c.run (Style.change takes) (opening v ++ grid ++ contents v e p gradients ++ [.restore]) =
      { c with now := { c.now with fill := .color Color.background } } := by
  have hopening : (c.run (Style.change takes) (opening v)).saved =
      { c.now with fill := .color Color.background } :: c.saved := by
    simp [opening, Context.run, Context.step, Style.change, Style.set, htakes.background]
  have hkept := ne_save_and_ne_restore (e := e) (p := p) hgrid gradients
  rw [List.append_assoc (opening v), Context.run_append, Context.run_append,
    Context.run_restore ((Context.saved_run hkept _).trans hopening)]

/-- What a picture does to a context, and how its items come out. -/
structure Neat (takes : Call α → Bool) (v : View α) (e : Editor α) (p : Positions α)
    (c : Context (Style α)) (picture : List (Call α)) : Prop where
  /-- The picture falls into items of the board, and each is painted as it may be. -/
  items : ∃ items : List (Item α), items.flatMap (Item.calls v p) = picture ∧
    (Item.trace takes v p c items).map Prod.snd = c.trace (Style.change takes) picture ∧
    (∀ i ∈ items, i.Belongs v e p) ∧ ∀ o ∈ Item.trace takes v p c items, o.1.Allows o.2.1 o.2.2
  /-- The context is told once to remember its state and once to go back, with the last call. -/
  bracketed : ∃ before inside, picture = before ++ .save :: inside ++ [.restore] ∧
    ∀ x ∈ before ++ inside, x ≠ .save ∧ x ≠ .restore
  /-- In the end the context is as it was, but for the colour of the background. -/
  run_eq : c.run (Style.change takes) picture =
    { c with now := { c.now with fill := .color Color.background } }

/-- Nothing that is set for an item shows in another, on any board, seen in any way and in any
layout. -/
theorem draw_neutral (v : View α) (e : Editor α) (p : Positions α) (l : Layout) (gradients : Bool)
    (htakes : TakesBack takes) {c : Context (Style α)} (hc : c.now.Neutral) :
    ((v.draw e p l gradients).isSome ↔ (l = .snapToGrid → (Grid.draw v).isSome)) ∧
      ∀ picture, v.draw e p l gradients = some picture → Neat takes v e p c picture := by
  refine ⟨isSome_draw_iff v e p l gradients, fun picture hpicture => ?_⟩
  obtain ⟨grid, hgrid, rfl⟩ := Option.map_eq_some_iff.mp hpicture
  obtain ⟨items, hcalls, hbelongs, hallows⟩ := items_picture htakes hc hgrid gradients
  refine ⟨⟨items, hcalls, ?_, hbelongs, hallows⟩, ?_, run_picture htakes c hgrid gradients⟩
  · rw [Item.map_snd_trace, hcalls]
  · refine ⟨[.fillStyle (.color Color.background), .fillRect .origin v.width v.height],
      [.translate ⟨v.transform.x, v.transform.y⟩, .scale v.transform.k v.transform.k] ++
        (grid ++ contents v e p gradients), by simp [opening], ?_⟩
    rw [← List.append_assoc, List.forall_mem_append]
    exact ⟨by simp, ne_save_and_ne_restore hgrid gradients⟩

/-- A special node and its child. -/
def motherBoard : Graph Float :=
  .ofItems
    [⟨"a", "", .special, none, .origin⟩,
      ⟨"b", "child", .complexCircle, some .specialChild, ⟨200.0, 0.0⟩⟩]
    [⟨"a", "b", .special⟩]

/-- What a context starts with. -/
def startStyle : Style Float where
  frame := .pixels
  fill := .color "black"
  stroke := "black"
  lineWidth := 1.0
  lineDash := []
  dashOffset := 0.0
  opacity := 1.0
  font := 10.0
  textAlign := "start"
  textBaseline := "alphabetic"

/-- With the edge chosen, the child under the pointer, and another edge being drawn. -/
theorem draw_neutral_motherBoard :
    let e : Editor Float := { Editor.start motherBoard true with selection := .ofEdge ⟨"a", "b"⟩ }
    let v : View Float :=
      { View.ofSize 640 480 with hover := some "b", draft := some ⟨"b", none, ⟨50.0, 80.0⟩⟩ }
    let p := Layout.stored.positions e.graph
    TakesBack (Call.makesSense (α := Float)) ∧ startStyle.Neutral ∧
      ∃ picture, v.draw e p .stored true = some picture ∧
        Neat Call.makesSense v e p ⟨startStyle, []⟩ picture := by
  intro e v p
  have htakes : TakesBack (Call.makesSense (α := Float)) := ⟨by decide, rfl, rfl⟩
  have hneutral : startStyle.Neutral := ⟨rfl, rfl⟩
  obtain ⟨hsome, hneat⟩ := draw_neutral (c := ⟨startStyle, []⟩) v e p .stored true htakes hneutral
  obtain ⟨picture, hpicture⟩ := Option.isSome_iff_exists.mp (hsome.mpr nofun)
  exact ⟨htakes, hneutral, picture, hpicture, hneat picture hpicture⟩

end Drawing

end GraphBoard
