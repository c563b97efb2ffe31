import GraphBoard.Drawing.Context
import GraphBoard.Drawing.Figure
import GraphBoard.Drawing.Picture
import GraphBoard.Proofs.Layout.Placement

/-!
# GraphBoard.Proofs.Drawing.Frame

The parts of a picture, and the frame that they are drawn in.  A picture tells the context where to
put points once, in its opening; none of its other parts says anything about that.

* `keepsFrame_grid`, `keepsFrame_contents` — the grid and the items of a board leave the frame
  alone;
* `frame_of_mem_trace` — so whatever a picture does with a path, it does in one frame, the view's;
* `map_fst_drawn_nodes` — on a valid board every node has a place, so that none is left out.
-/

namespace GraphBoard

variable {α : Type}

/-- The lines across the width would be too dense, and none are drawn. -/
def Grid.Crowded [Scalar α] (v : View α) : Prop :=
  crowded < ((v.toGraph ⟨v.width, v.height⟩).x - (v.toGraph .origin).x) / step

namespace Drawing

variable [Scalar α]

/-! ## The grid -/

/-- A grid has no calls, because there is none or because it would be too dense, or it is one path
along lines that are drawn across the view. -/
theorem eq_nil_or_lines_of_grid? {v : View α} {l : Layout} {grid : List (Call α)}
    (h : grid? v l = some grid) :
    (l = .snapToGrid → Grid.Crowded v) ∧ grid = [] ∨
      ∃ xs ys : List α, (l = .snapToGrid ∧ ¬ Grid.Crowded v ∧
          Grid.lines (v.toGraph .origin).x (v.toGraph ⟨v.width, v.height⟩).x = some xs ∧
          Grid.lines (v.toGraph .origin).y (v.toGraph ⟨v.width, v.height⟩).y = some ys) ∧
        grid = [.strokeStyle Color.grid, .lineWidth (1.0 / v.transform.k), .beginPath] ++
          xs.flatMap (Grid.vertical (v.toGraph .origin) (v.toGraph ⟨v.width, v.height⟩)) ++
          ys.flatMap (Grid.horizontal (v.toGraph .origin) (v.toGraph ⟨v.width, v.height⟩)) ++
          [.stroke] := by
  cases l with
  | stored | verticalTree =>
      cases h
      exact Or.inl ⟨nofun, rfl⟩
  | snapToGrid =>
      rw [grid?, Grid.draw] at h
      split at h
      · rename_i hcrowded
        cases h
        exact Or.inl ⟨fun _ => hcrowded, rfl⟩
      · rename_i hcrowded
        obtain ⟨xs, hxs, h⟩ := Option.bind_eq_some_iff.mp h
        obtain ⟨ys, hys, h⟩ := Option.bind_eq_some_iff.mp h
        cases h
        exact Or.inr ⟨xs, ys, ⟨rfl, hcrowded, hxs, hys⟩, rfl⟩

/-! ## The calls of a node -/

/-- What is drawn of a node before its main shape. -/
def behind (v : View α) (s : Selection) (gradient : Option Nat) (n : Node α) (c : Point α) :
    List (Call α) :=
  (if glows v s n then glow c n.kind (s.hasNode n.key) gradient else []) ++ underlay c n.underlay

/-- What is drawn of a node after its main shape. -/
def inFront (v : View α) (n : Node α) (c : Point α) : List (Call α) :=
  ring c n.kind v.transform.k ++ title c n.kind n.title v.transform.k

/-- A node is drawn from the back to the front. -/
theorem node_eq (v : View α) (s : Selection) (gradient : Option Nat) (n : Node α) (c : Point α) :
    node v s gradient n c =
      behind v s gradient n c ++ shape c n.kind (s.hasNode n.key) v.transform.k ++
        inFront v n c := by
  simp only [node, behind, inFront, List.append_assoc]
  rfl

/-! ## The frame -/

section Keeping

/-- Every call of a list leaves frames alone. -/
def KeepsFrame {α : Type} (calls : List (Call α)) : Prop := ∀ x ∈ calls, Frame.keeps x = true

omit [Scalar α] in
/-- Two lists of calls leave frames alone in turn. -/
theorem KeepsFrame.append {xs ys : List (Call α)} (hx : KeepsFrame xs) (hy : KeepsFrame ys) :
    KeepsFrame (xs ++ ys) :=
  List.forall_mem_append.mpr ⟨hx, hy⟩

omit [Scalar α] in
theorem KeepsFrame.flatMap {β : Type} {f : β → List (Call α)} {bs : List β}
    (h : ∀ b ∈ bs, KeepsFrame (f b)) : KeepsFrame (bs.flatMap f) := by
  intro x hx
  obtain ⟨b, hb, hxb⟩ := List.mem_flatMap.mp hx
  exact h b hb x hxb

omit [Scalar α] in
/-- Calls that keep the frame remember nothing and go back to nothing. -/
theorem KeepsFrame.ne_save_and_ne_restore {calls : List (Call α)} (h : KeepsFrame calls) :
    ∀ x ∈ calls, x ≠ .save ∧ x ≠ .restore := by
  intro x hx
  have hkeeps := h x hx
  constructor <;> rintro rfl <;> contradiction

variable {v : View α} {s : Selection} {p : Positions α}

/-- The grid leaves frames alone. -/
theorem keepsFrame_grid {l : Layout} {grid : List (Call α)} (h : grid? v l = some grid) :
    KeepsFrame grid := by
  obtain ⟨-, rfl⟩ | ⟨xs, ys, -, rfl⟩ := eq_nil_or_lines_of_grid? h
  · exact fun x hx => absurd hx List.not_mem_nil
  · refine KeepsFrame.append (.append (.append ?_ (.flatMap fun x _ => ?_))
      (.flatMap fun y _ => ?_)) ?_
    all_goals simp [KeepsFrame, Frame.keeps, Grid.vertical, Grid.horizontal]

/-- An arrow leaves frames alone. -/
theorem keepsFrame_arrow (e : Edge) (start tip : Point α) :
    KeepsFrame (arrow v s e start tip) := by
  rw [arrow]
  split
  · exact fun x hx => absurd hx List.not_mem_nil
  · refine KeepsFrame.append (.append (.append (.append ?_ ?_) ?_) ?_) ?_
    · simp [KeepsFrame, Frame.keeps]
    · cases e.kind <;> simp [KeepsFrame, Frame.keeps, dashes]
    · simp [KeepsFrame, Frame.keeps]
    · simp [KeepsFrame, Frame.keeps, arrowhead]
    · split <;> simp [KeepsFrame, Frame.keeps, handle, circle]

theorem keepsFrame_edges (g : Graph α) : KeepsFrame (edges v g s p) := by
  refine KeepsFrame.flatMap fun e _ => ?_
  rw [edge]
  split
  · exact keepsFrame_arrow e _ _
  · exact fun x hx => absurd hx List.not_mem_nil

theorem keepsFrame_draft : KeepsFrame (draft v p) := by
  rw [draft]
  split
  · exact fun x hx => absurd hx List.not_mem_nil
  · split <;> simp [KeepsFrame, Frame.keeps]

/-- What is behind the main shape leaves frames alone. -/
theorem keepsFrame_behind (gradient : Option Nat) (n : Node α) (c : Point α) :
    KeepsFrame (behind v s gradient n c) := by
  refine KeepsFrame.append ?_ ?_
  · split
    · cases gradient <;> simp [KeepsFrame, Frame.keeps, glow, circle]
    · exact fun x hx => absurd hx List.not_mem_nil
  · rcases n.underlay with _ | ⟨⟨⟩⟩ <;> simp [KeepsFrame, Frame.keeps, underlay, circle]

theorem keepsFrame_shape (c : Point α) (kind : NodeKind) (selected : Bool) (k : α) :
    KeepsFrame (shape c kind selected k) := by
  refine KeepsFrame.append ?_ ?_
  · cases kind <;> simp [KeepsFrame, Frame.keeps, traceShape, polygon, circle]
  · simp [KeepsFrame, Frame.keeps]

theorem keepsFrame_inFront (n : Node α) (c : Point α) : KeepsFrame (inFront v n c) := by
  refine KeepsFrame.append ?_ ?_
  · cases hkind : n.kind <;> simp [KeepsFrame, Frame.keeps, ring, circle]
  · rw [title]
    split
    · exact fun x hx => absurd hx List.not_mem_nil
    · cases n.kind <;> simp [KeepsFrame, Frame.keeps]

/-- The calls of a node leave the frame alone. -/
theorem keepsFrame_node (gradient : Option Nat) (n : Node α) (c : Point α) :
    KeepsFrame (node v s gradient n c) := by
  rw [node_eq]
  exact .append (.append (keepsFrame_behind gradient n c) (keepsFrame_shape c _ _ _))
    (keepsFrame_inFront n c)

/-- The calls of many nodes leave the frame alone. -/
theorem keepsFrame_nodes (gradients : Bool) (made : Nat) (ns : List (Node α)) :
    KeepsFrame (nodes v s p gradients made ns) := by
  induction ns generalizing made with
  | nil => exact fun x hx => absurd hx List.not_mem_nil
  | cons n ns ih =>
      rw [nodes]
      cases v.displayPoint p n.key with
      | none => exact ih made
      | some c => exact .append (keepsFrame_node _ n c) (ih _)

/-- The items of a board leave the frame alone. -/
theorem keepsFrame_contents (e : Editor α) (gradients : Bool) :
    KeepsFrame (contents v e p gradients) :=
  .append (.append (keepsFrame_edges e.graph) keepsFrame_draft)
    (keepsFrame_nodes gradients 0 e.graph.nodes)

end Keeping

/-- The frame that the opening of a picture sets. -/
def frame (v : View α) : Frame α := (Context.run Frame.change ⟨.pixels, []⟩ (opening v)).now

/-- Calls that keep the frame all find the one that was there before them. -/
theorem KeepsFrame.eq_of_mem_trace {calls : List (Call α)} (h : KeepsFrame calls)
    (c : Context (Frame α)) : ∀ o ∈ c.trace Frame.change calls, o.1 = c.now := by
  induction calls with
  | nil => exact fun o ho => absurd ho List.not_mem_nil
  | cons x xs ih =>
      obtain ⟨hx, hxs⟩ := List.forall_mem_cons.mp h
      have hstep : c.step Frame.change x = c := by
        cases x <;> first | rfl | cases hx
      rw [Context.trace, hstep]
      exact List.forall_mem_cons.mpr ⟨rfl, ih hxs⟩

/-- Whatever a picture does with a path, it does in the frame that its opening sets. -/
theorem frame_of_mem_trace {v : View α} {e : Editor α} {p : Positions α} {l : Layout}
    {gradients : Bool} {picture : List (Call α)} (h : v.draw e p l gradients = some picture) :
    ∀ o ∈ Context.trace Frame.change ⟨.pixels, []⟩ picture, o.2.onPath = true →
      o.1 = frame v := by
  obtain ⟨grid, hgrid, rfl⟩ := Option.map_eq_some_iff.mp h
  have hkept := (keepsFrame_grid hgrid).append (keepsFrame_contents (v := v) (p := p) e gradients)
  -- the opening and the end lead no path, and what is between them keeps the frame
  rw [List.append_assoc (opening v), Context.trace_append, Context.trace_append]
  simp only [List.forall_mem_append]
  refine ⟨⟨?_, fun o ho _ => hkept.eq_of_mem_trace _ o ho⟩, ?_⟩
  · simp [opening, Context.trace, Call.onPath]
  · simp [Context.trace, Call.onPath]

/-! ## Places -/

/-- The nodes that have a place, each with it. -/
def drawn (v : View α) (p : Positions α) (ns : List (Node α)) : List (Node α × Point α) :=
  ns.filterMap fun n => (v.displayPoint p n.key).map (n, ·)

/-- Every node of a valid graph is drawn somewhere, in every layout. -/
theorem exists_displayPoint {g : Graph α} (hg : g.Valid) (v : View α) (l : Layout) {k : NodeKey}
    (hk : k ∈ g.keys) : ∃ c, v.displayPoint (l.positions g) k = some c := by
  rw [View.displayPoint]
  split
  · exact ⟨_, rfl⟩
  · have hplace : ((l.positions g).get? k).isSome := by
      rw [Positions.isSome_get?_iff, Layout.mem_map_fst_entries_iff hg]
      exact hk
    exact Option.isSome_iff_exists.mp hplace

omit [Scalar α] in
/-- A node that has a place is drawn there. -/
theorem displayPoint_of_mem_drawn {v : View α} {p : Positions α} {ns : List (Node α)} {n : Node α}
    {c : Point α} (h : (n, c) ∈ drawn v p ns) : v.displayPoint p n.key = some c := by
  obtain ⟨m, -, hm⟩ := List.mem_filterMap.mp h
  obtain ⟨d, hd, he⟩ := Option.map_eq_some_iff.mp hm
  cases he
  exact hd

/-- Every node of a board has a place in each of its layouts, so none is left out. -/
theorem map_fst_drawn_nodes {g : Graph α} (hg : g.Valid) (v : View α) (l : Layout) :
    (drawn v (l.positions g) g.nodes).map Prod.fst = g.nodes := by
  rw [drawn, List.map_filterMap]
  refine (List.filterMap_congr fun n hn => ?_).trans List.filterMap_some
  obtain ⟨c, hc⟩ := exists_displayPoint hg v l (List.mem_map_of_mem hn)
  rw [hc]
  rfl

end Drawing

end GraphBoard
